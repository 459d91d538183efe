import StagedScript.Main
import StagedScript.Proofs.Code.Assembler
import StagedScript.Proofs.Code.Depth
import StagedScript.Proofs.Compile.Placeholder
import StagedScript.Proofs.Compile.Safe
import StagedScript.Proofs.Compile.Scope
import StagedScript.Proofs.Compile.Trace
import StagedScript.Proofs.Machine.Effect
import StagedScript.Proofs.Machine.Equality
import StagedScript.Proofs.Reading.Keywords
import StagedScript.Proofs.Reading.Literal
import StagedScript.Proofs.Reading.Persist
import StagedScript.Proofs.Reading.Total
import StagedScript.Proofs.Service.Cache
import StagedScript.Proofs.Tree.Instance
import StagedScript.Service.Editor
import StagedScript.Service.Remote
