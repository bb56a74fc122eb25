import Trance.Main
import Trance.Proofs.Grammar.Outcome
import Trance.Proofs.Grammar.UniqueClause
import Trance.Proofs.Jumps.Exact
import Trance.Proofs.Jumps.Landing
import Trance.Proofs.Running.Fresh
import Trance.Proofs.Running.LoopFree
import Trance.Proofs.Running.Loops
import Trance.Proofs.Typing.Soundness
import Trance.Proofs.Linking.Agreement
import Trance.Proofs.Linking.Arrangement
import Trance.Proofs.Linking.Direct
import Trance.Proofs.Linking.Independence
import Trance.Proofs.Scoping.Arena
import Trance.Proofs.Running.Concealment
import Trance.Proofs.Running.Shapes
import Trance.Proofs.Typing.TypeNames
import Trance.Proofs.Lexing.Spelling
import Trance.Proofs.Assertions.Transparency
import Trance.Proofs.Running.Interleaving
import Trance.Proofs.Places.Evaluations
import Trance.Proofs.Places.Laws
import Trance.Proofs.Checking.Restoring
import Trance.Proofs.Checking.Certainty
import Trance.Proofs.Grammar.Numerals
