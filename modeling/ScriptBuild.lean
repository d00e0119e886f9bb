import ScriptBuild.Compiler.Copying
import ScriptBuild.Options.File
import ScriptBuild.Toolchain
import ScriptBuild.Zip.Writer
import ScriptBuild.Proofs.Manifest.Lines
import ScriptBuild.Proofs.Compiler.Copying
import ScriptBuild.Proofs.Declarations.Written
import ScriptBuild.Proofs.Expansion.Complete
import ScriptBuild.Proofs.Expansion.Exact
import ScriptBuild.Proofs.Expansion.Strict
import ScriptBuild.Proofs.Expansion.Unique
import ScriptBuild.Proofs.LoadOrder.Claimants
import ScriptBuild.Proofs.LoadOrder.Counted
import ScriptBuild.Proofs.LoadOrder.Recursion
import ScriptBuild.Proofs.Library.Ordered
import ScriptBuild.Proofs.LoadOrder.Stable
import ScriptBuild.Proofs.Namespace.Script
import ScriptBuild.Proofs.OnDemand.Accounts
import ScriptBuild.Proofs.OnDemand.Current
import ScriptBuild.Proofs.OnDemand.Outputs
import ScriptBuild.Proofs.OnDemand.Delivery
import ScriptBuild.Proofs.OnDemand.Ending
import ScriptBuild.Proofs.Output.Ensured
import ScriptBuild.Proofs.Output.Members
import ScriptBuild.Proofs.Output.Passes
import ScriptBuild.Proofs.Output.Standing
import ScriptBuild.Proofs.Source.Covered
import ScriptBuild.Proofs.Toolchain.Destination
import ScriptBuild.Proofs.Toolchain.Once
import ScriptBuild.Proofs.Toolchain.Targets
import ScriptBuild.Cache
