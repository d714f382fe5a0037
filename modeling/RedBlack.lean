import RedBlack.Linked.Lemmas
import RedBlack.Proofs.Arena.DoubleFree
import RedBlack.Proofs.Engine.Amortization
import RedBlack.Proofs.Engine.Checking
import RedBlack.Proofs.Engine.Duality
import RedBlack.Proofs.Engine.Handles
import RedBlack.Proofs.Engine.Height
import RedBlack.Proofs.Engine.Iterators
import RedBlack.Proofs.Engine.Memories
import RedBlack.Proofs.Engine.Pool
import RedBlack.Proofs.Engine.Questions
import RedBlack.Proofs.Engine.Rebalancing
import RedBlack.Proofs.Engine.Refusal
import RedBlack.Proofs.Engine.Teardown
import RedBlack.Proofs.Engine.Traversal
import RedBlack.Proofs.Engine.Twins
import RedBlack.Proofs.Engine.Watermarks
import RedBlack.Proofs.Linked.Pivot
import RedBlack.Proofs.Linked.Restoration
import RedBlack.Proofs.Permutations
import RedBlack.Proofs.SortedList.Containers
import RedBlack.Proofs.SortedList.Removal
import RedBlack.Proofs.SortedList.Resynchronization
import RedBlack.Session.Slots
import RedBlack.Session.Survey
