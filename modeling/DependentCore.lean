import DependentCore.Proofs.Reduction.Coupling
import DependentCore.Syntax.Nodes
import DependentCore.Typing.Declare
import DependentCore.Proofs.Binding.FreeVariables
import DependentCore.Proofs.Binding.Nameless
import DependentCore.Proofs.Binding.Replacement
import DependentCore.Proofs.Binding.Outline
import DependentCore.Proofs.Binding.Calls
import DependentCore.Proofs.Flow.Paths
import DependentCore.Proofs.Integers
import DependentCore.Proofs.Reduction.Rules
import DependentCore.Proofs.Reduction.Scalars
import DependentCore.Proofs.Reduction.Termination
import DependentCore.Proofs.Typing.Derivations
import DependentCore.Proofs.Typing.Fillings
import DependentCore.Proofs.Typing.Unreachable
import DependentCore.Proofs.Semantics.Constants
import DependentCore.Proofs.Semantics.Evaluation
import DependentCore.Proofs.Semantics.FirstOrder
import DependentCore.Proofs.Semantics.Substitution
import DependentCore.Proofs.Reduction.Meaning
import DependentCore.Proofs.Globals.Stored
import DependentCore.Proofs.Reduction.Preservation
import DependentCore.Proofs.Binding.Known
import DependentCore.Proofs.Binding.Relabeling
import DependentCore.Proofs.Reduction.Relabeling
import DependentCore.Proofs.Typing.Relabeling
import DependentCore.Proofs.Typing.Coupling
import DependentCore.Proofs.Typing.Runs
import DependentCore.Proofs.Typing.Vocabulary
import DependentCore.Proofs.Typing.AlphaInvariance
import DependentCore.Proofs.Flow.Impossible
import DependentCore.Proofs.Typing.Effects
import DependentCore.Proofs.Binding.Everywhere
import DependentCore.Proofs.Reduction.Agreement
import DependentCore.Proofs.Globals.AbsoluteNames
import DependentCore.Proofs.Globals.Hygiene
import DependentCore.Proofs.Typing.Erasure
import DependentCore.Proofs.Globals.Entries
import DependentCore.Proofs.Typing.Everywhere
import DependentCore.Proofs.Globals.References
import DependentCore.Proofs.Reduction.NormalForms
import DependentCore.Proofs.Typing.Scoping
import DependentCore.Proofs.Typing.Purity
import DependentCore.Proofs.Typing.Instantiation
import DependentCore.Proofs.Binding.Heads
import DependentCore.Proofs.Reduction.Units
import DependentCore.Proofs.Reduction.Everywhere
import DependentCore.Proofs.Reduction.Returns
import DependentCore.Proofs.Globals.Rejected
import DependentCore.Proofs.Globals.Root
import DependentCore.Proofs.Typing.Returned
import DependentCore.Proofs.Globals.Placeholders
import DependentCore.Proofs.Globals.Numerals
import DependentCore.Proofs.Globals.Sorts
import DependentCore.Proofs.Flow.Terminators
import DependentCore.Proofs.Flow.Execution
import DependentCore.Proofs.Reduction.Pruning
import DependentCore.Proofs.Binding.Simultaneous
import DependentCore.Proofs.Binding.BinderNames
import DependentCore.Proofs.Binding.FreshBinders
import DependentCore.Proofs.Reduction.Arguments
import DependentCore.Proofs.Typing.Arguments
import DependentCore.Proofs.Flow.Removal
import DependentCore.Proofs.Typing.Visibility
import DependentCore.Proofs.Typing.Directions
import DependentCore.Proofs.Globals.Signatures
import DependentCore.Proofs.Typing.Locality
import DependentCore.Proofs.Globals.Enclosing
import DependentCore.Proofs.Reduction.LostEffects
import DependentCore.Proofs.Binding.Addressed
import DependentCore.Proofs.Typing.Addressed
import DependentCore.Proofs.Reduction.Addressed
import DependentCore.Proofs.Globals.Addressed
