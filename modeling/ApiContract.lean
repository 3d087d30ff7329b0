import ApiContract.Main
import ApiContract.Proofs.Covering
import ApiContract.Proofs.Ending
import ApiContract.Proofs.Promises
import ApiContract.Proofs.Reflexivity
import ApiContract.Proofs.Splitting
import ApiContract.Proofs.Results
import ApiContract.Proofs.Generating
import ApiContract.Proofs.Rereading
import ApiContract.Proofs.Exchanges
import ApiContract.Proofs.Reordering
import ApiContract.Proofs.Encoding
import ApiContract.Proofs.Rendering
import ApiContract.Proofs.Rows
import ApiContract.Proofs.Sequences
import ApiContract.Proofs.Coverage
import ApiContract.Proofs.Tails
import ApiContract.Proofs.Undeclared
import ApiContract.Proofs.Halting
import ApiContract.Proofs.Escaping
import ApiContract.Proofs.Paths
import ApiContract.Proofs.Printing
import ApiContract.Proofs.Locating
import ApiContract.Proofs.Likeness
import ApiContract.Proofs.Deciding
import ApiContract.Proofs.Policies
import ApiContract.Proofs.PathVariants
import ApiContract.Proofs.Elementary
import ApiContract.Proofs.Literals
import ApiContract.Proofs.Tolerance
import ApiContract.Proofs.Chance
import ApiContract.Proofs.Entities
import ApiContract.Proofs.Resolving
import ApiContract.Proofs.Assumptions
import ApiContract.Proofs.Stubs
