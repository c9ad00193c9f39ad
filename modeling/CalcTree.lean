import CalcTree.Document
import CalcTree.Grammar.Expected
import CalcTree.Grammar.NodeType
import CalcTree.Highlight
import CalcTree.Node.Outline
import CalcTree.Node.Sexp
import CalcTree.Proofs.Acceptance
import CalcTree.Proofs.Captures
import CalcTree.Proofs.CommentLines
import CalcTree.Proofs.Concatenation
import CalcTree.Proofs.Conformance
import CalcTree.Proofs.Coverage
import CalcTree.Proofs.Leaves
import CalcTree.Proofs.Loading
import CalcTree.Proofs.LongestMatch
import CalcTree.Proofs.Offence
import CalcTree.Proofs.Outline
import CalcTree.Proofs.Overlap
import CalcTree.Proofs.Paths
import CalcTree.Proofs.Pruning
import CalcTree.Proofs.Separators
import CalcTree.Proofs.Slices
import CalcTree.Proofs.Spacing
import CalcTree.Proofs.Spans
import CalcTree.Proofs.UnknownBlock
import CalcTree.Proofs.Viability
