import ScriptCheck.Main
import ScriptCheck.Proofs.Faithful
import ScriptCheck.Proofs.Faults
import ScriptCheck.Proofs.RoundTrip
import ScriptCheck.Proofs.RecordedTypes
import ScriptCheck.Proofs.PathTypes
import ScriptCheck.Proofs.OptionalSemicolon
import ScriptCheck.Proofs.Declarations
import ScriptCheck.Proofs.ScopeRegions
import ScriptCheck.Proofs.CacheHistory
import ScriptCheck.Proofs.Reporting
import ScriptCheck.Proofs.Nesting
import ScriptCheck.Proofs.Offsets
import ScriptCheck.Proofs.Jumps
import ScriptCheck.Proofs.Hoisting
import ScriptCheck.Proofs.Provenance
import ScriptCheck.Proofs.Relexing
import ScriptCheck.Proofs.Spacing
import ScriptCheck.Proofs.PassLists
import ScriptCheck.Proofs.ShownTypes
import ScriptCheck.Proofs.NestingLimit
import ScriptCheck.Proofs.Surroundings
