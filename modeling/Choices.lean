import Choices.Main
import Choices.Product.Queue
import Choices.Proofs.Coefficients
import Choices.Proofs.Combination.Buffer
import Choices.Proofs.Combination.Complement
import Choices.Proofs.Combination.Rank
import Choices.Proofs.Command.Placement
import Choices.Proofs.Command.Rows
import Choices.Proofs.Factors
import Choices.Proofs.Listing
import Choices.Proofs.Permutation.Rank
import Choices.Proofs.Permutation.Refinement
import Choices.Proofs.Permutation.Workspace
import Choices.Proofs.Product.Bounds
import Choices.Proofs.Product.Concatenation
import Choices.Proofs.Reorderings
