import StyleTree.Assoc
import StyleTree.Command.Arguments
import StyleTree.Command.Run
import StyleTree.Compiler
import StyleTree.Decimal.Binary64
import StyleTree.Decimal.Shortest
import StyleTree.Document.Arena
import StyleTree.Document.Basic
import StyleTree.Document.Frame
import StyleTree.Document.Merge
import StyleTree.Error
import StyleTree.Extension.Arena
import StyleTree.Extension.Expand
import StyleTree.Extension.Registry
import StyleTree.Extension.Resolve
import StyleTree.Extension.Template
import StyleTree.Extension.Weight
import StyleTree.Files.Import
import StyleTree.Files.Tree
import StyleTree.Json.Basic
import StyleTree.Json.Number
import StyleTree.Json.Printer
import StyleTree.Json.Reader
import StyleTree.Json.Token
import StyleTree.Main
import StyleTree.Options
import StyleTree.Selector.Combine
import StyleTree.Selector.Kind
import StyleTree.Selector.Split
import StyleTree.Sheet.Css
import StyleTree.Sheet.Grouping
import StyleTree.Sheet.Property
import StyleTree.Sheet.RuleTable
import StyleTree.Sheet.Stylesheet
import StyleTree.Sheet.Unit
import StyleTree.Sheet.Walk
import StyleTree.Storage
import StyleTree.Text.Blank
import StyleTree.Text.Join
import StyleTree.Text.Obscure
import StyleTree.Text.Quoted
import StyleTree.Text.Replace
import StyleTree.Proofs.Arena.Links
import StyleTree.Proofs.Arena.Changes
import StyleTree.Proofs.Arena.Merging
import StyleTree.Proofs.Arena.Resolution
import StyleTree.Proofs.Arena.Reached
import StyleTree.Proofs.Arena.KeyPaths
import StyleTree.Proofs.Arena.Locality
import StyleTree.Proofs.Assoc
import StyleTree.Proofs.Grouping.Emission
import StyleTree.Proofs.Grouping.Members
import StyleTree.Proofs.Grouping.Steps
import StyleTree.Proofs.Grouping.Run
import StyleTree.Proofs.Grouping.Conservation
import StyleTree.Proofs.Grouping.Order
import StyleTree.Proofs.Resolution.Ending
import StyleTree.Proofs.Resolution.Fixpoint
import StyleTree.Proofs.Document.Lookup
import StyleTree.Proofs.Document.WellFormed
import StyleTree.Proofs.Document.DeepMerge
import StyleTree.Proofs.Document.KeyPaths
import StyleTree.Proofs.Resolution.Cycles
import StyleTree.Proofs.Resolution.Nesting
import StyleTree.Proofs.Sheet.Visits
import StyleTree.Proofs.Sheet.Building
import StyleTree.Proofs.Sheet.Hoisting
import StyleTree.Proofs.Files.Importing
import StyleTree.Proofs.Selector.Scanning
import StyleTree.Proofs.Selector.Nesting
import StyleTree.Proofs.Sheet.SelectorPaths
import StyleTree.Proofs.Grouping.Sharing
import StyleTree.Proofs.Sheet.CssReading
import StyleTree.Proofs.Selector.Commas
import StyleTree.Proofs.Sheet.Snapshot
import StyleTree.Proofs.Sheet.Outline
import StyleTree.Proofs.Sheet.Rewrites
import StyleTree.Proofs.Sheet.CommaLists
import StyleTree.Proofs.Grouping.Turns
import StyleTree.Proofs.Grouping.TableOrder
import StyleTree.Proofs.Grouping.Exclusions
import StyleTree.Proofs.Selector.Grammar
import StyleTree.Proofs.Sheet.SelectorLists
import StyleTree.Proofs.Document.ReadingBack
import StyleTree.Proofs.Document.Folding
import StyleTree.Proofs.Document.Repeating
import StyleTree.Proofs.Document.InPlace
import StyleTree.Proofs.Resolution.Locality
import StyleTree.Proofs.Document.Preorder
import StyleTree.Proofs.Sheet.MalformedKeys
import StyleTree.Proofs.Sheet.Accounting
import StyleTree.Proofs.Substitution
import StyleTree.Proofs.Grouping.Moments
import StyleTree.Proofs.Sheet.RuleIndex
import StyleTree.Proofs.Document.Texts
import StyleTree.Proofs.Sheet.EmptyRules
