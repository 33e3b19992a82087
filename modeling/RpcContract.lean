import RpcContract.Contract.Grammar
import RpcContract.Contract.Json
import RpcContract.Contract.Render
import RpcContract.Contract.Rules
import RpcContract.Json.Reader
import RpcContract.Main
import RpcContract.Proofs.Breaches
import RpcContract.Proofs.Decoding
import RpcContract.Proofs.Joining
import RpcContract.Proofs.Passes
import RpcContract.Proofs.References
import RpcContract.Proofs.Renaming
import RpcContract.Proofs.Rendering
import RpcContract.Proofs.Results
import RpcContract.Proofs.Running
import RpcContract.Proofs.Unexpected
import RpcContract.Proofs.Wording
import RpcContract.Proofs.Lines
import RpcContract.Proofs.Marks
import RpcContract.Proofs.BaseNames
import RpcContract.Proofs.Templates
import RpcContract.Proofs.Requirements
