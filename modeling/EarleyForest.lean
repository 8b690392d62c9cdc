import EarleyForest.Bnf.Merged
import EarleyForest.Bnf.Notation
import EarleyForest.Bnf.Phrase
import EarleyForest.Bnf.Printer
import EarleyForest.Bnf.Reader
import EarleyForest.Bnf.Report
import EarleyForest.Bnf.Token
import EarleyForest.Chart.Front
import EarleyForest.Chart.Item
import EarleyForest.Chart.Parse
import EarleyForest.Chart.Routing
import EarleyForest.Chart.Stage
import EarleyForest.Enumeration.Builder
import EarleyForest.Enumeration.Iteration
import EarleyForest.Enumeration.Nested
import EarleyForest.Enumeration.Odometer
import EarleyForest.Enumeration.Search
import EarleyForest.Enumeration.Walk
import EarleyForest.Forest.Basic
import EarleyForest.Forest.Traversal
import EarleyForest.Grammar.Basic
import EarleyForest.Grammar.Derivation
import EarleyForest.Grammar.Spelling
import EarleyForest.Grammar.Table
import EarleyForest.Grammar.Validity
import EarleyForest.Parser.Basic
import EarleyForest.Parser.Rendering
import EarleyForest.Text.Blank
import EarleyForest.Text.CharTable
import EarleyForest.Text.Combining
import EarleyForest.Text.Quoted
import EarleyForest.Text.Unprintable
import EarleyForest.Tree.Basic
import EarleyForest.Tree.Derivation
import EarleyForest.Tree.Printer
import EarleyForest.Tree.Traversal
import EarleyForest.Proofs.Forest.Growth
import EarleyForest.Proofs.Forest.Label
import EarleyForest.Proofs.Forest.Soundness
import EarleyForest.Proofs.Forest.WellFormed
import EarleyForest.Proofs.Chart.Join
import EarleyForest.Proofs.Chart.Offer
import EarleyForest.Proofs.Chart.Processing
import EarleyForest.Proofs.Chart.Course
import EarleyForest.Proofs.Chart.Closing
import EarleyForest.Proofs.Chart.Worklist
import EarleyForest.Proofs.Chart.Keeping
import EarleyForest.Proofs.Chart.Completeness
import EarleyForest.Proofs.Parser.Outcome
import EarleyForest.Proofs.Parser.Packing
import EarleyForest.Proofs.Enumeration.Plan
import EarleyForest.Proofs.Enumeration.Survey
import EarleyForest.Proofs.Enumeration.Sequence
import EarleyForest.Proofs.Tree.Folding
import EarleyForest.Proofs.Tree.Showing
import EarleyForest.Proofs.Enumeration.Assembly
import EarleyForest.Proofs.Enumeration.Cycles
import EarleyForest.Proofs.Enumeration.Descent
import EarleyForest.Proofs.Enumeration.Repetition
import EarleyForest.Proofs.Tree.Subtrees
import EarleyForest.Proofs.Enumeration.Mirroring
import EarleyForest.Proofs.Enumeration.Multiplicity
import EarleyForest.Proofs.Parser.Trees
import EarleyForest.Proofs.Chart.Agreement
import EarleyForest.Proofs.Parser.Beginning
import EarleyForest.Proofs.Parser.Builders
import EarleyForest.Proofs.Parser.Columns
import EarleyForest.Proofs.Enumeration.Least
import EarleyForest.Proofs.Parser.Rooted
import EarleyForest.Proofs.Enumeration.Parts
import EarleyForest.Proofs.Parser.Pruning
import EarleyForest.Proofs.Enumeration.Frames
import EarleyForest.Proofs.Enumeration.Stack
import EarleyForest.Proofs.Parser.Faultless
import EarleyForest.Proofs.Parser.Finite
import EarleyForest.Proofs.Enumeration.Walked
import EarleyForest.Proofs.Bnf.Lexing
import EarleyForest.Proofs.Bnf.Reading
import EarleyForest.Proofs.Bnf.Printing
import EarleyForest.Proofs.Parser.Listing
import EarleyForest.Proofs.Chart.Offers
import EarleyForest.Proofs.Parser.Items
import EarleyForest.Proofs.Forest.Renumbering
import EarleyForest.Proofs.Enumeration.Renumbered
import EarleyForest.Proofs.Parser.Reordered
import EarleyForest.Proofs.Bnf.Continuing
import EarleyForest.Proofs.Bnf.Cutting
import EarleyForest.Proofs.Grammar.Table
import EarleyForest.Proofs.Bnf.Spots
import EarleyForest.Proofs.Bnf.Stacks
import EarleyForest.Proofs.Bnf.Stopping
import EarleyForest.Proofs.Bnf.Merged
import EarleyForest.Proofs.Bnf.Malformed
import EarleyForest.Proofs.Grammar.Offenders
import EarleyForest.Proofs.Bnf.Refusals
import EarleyForest.Proofs.Tree.Legibility
import EarleyForest.Proofs.Parser.Legibility
import EarleyForest.Proofs.Forest.Preorder
import EarleyForest.Proofs.Results
import EarleyForest.Proofs.Parser.Foreign
import EarleyForest.Proofs.Parser.Lines
import EarleyForest.Proofs.Parser.Closure
import EarleyForest.Proofs.Chart.Routing
import EarleyForest.Proofs.Parser.Routing
import EarleyForest.Proofs.Enumeration.Marks
import EarleyForest.Proofs.Parser.Odometer
import EarleyForest.Proofs.Tree.Preorder
