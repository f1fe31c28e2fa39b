import StackCompiler.Main
import StackCompiler.Proofs.Correctness
import StackCompiler.Proofs.Discipline
import StackCompiler.Proofs.Compilations
import StackCompiler.Proofs.Parsing
import StackCompiler.Proofs.Prefixes
import StackCompiler.Proofs.Relocation
import StackCompiler.Proofs.Renumbering
import StackCompiler.Proofs.Slots
import StackCompiler.Record
import StackCompiler.Proofs.Joining
import StackCompiler.Proofs.Grammar.Complaints
import StackCompiler.Proofs.Pointing
import StackCompiler.Proofs.Depth.Sites
import StackCompiler.Proofs.Spacing
import StackCompiler.Proofs.Renaming.Sources
import StackCompiler.Proofs.Exchange.Sources
import StackCompiler.Proofs.Endings
import StackCompiler.Proofs.EndOfInput
import StackCompiler.Proofs.Naming
import StackCompiler.Proofs.Histories
import StackCompiler.Proofs.Descent
import StackCompiler.Proofs.Descent.Rules
import StackCompiler.Proofs.Descent.Progress
