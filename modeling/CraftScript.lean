import CraftScript.Document.Decoding
import CraftScript.Main
import CraftScript.Proofs.Braces
import CraftScript.Proofs.RecipeHeads
import CraftScript.Proofs.ReportHistory
import CraftScript.Proofs.Search
import CraftScript.Proofs.Heads
import CraftScript.Proofs.Canonical.Form
import CraftScript.Proofs.Tokens
import CraftScript.Proofs.Canonical.Words
import CraftScript.Proofs.Attributes
import CraftScript.Proofs.Canonical.ItemLine
import CraftScript.Proofs.Canonical.EntryLines
import CraftScript.Proofs.Canonical.Properties
import CraftScript.Proofs.Canonical.Layout
import CraftScript.Proofs.Canonical.Body
import CraftScript.Proofs.Canonical.Script
import CraftScript.Proofs.ReportMerge
import CraftScript.Proofs.Lines
import CraftScript.Proofs.LineComments
import CraftScript.Proofs.RecipeShape
import CraftScript.Proofs.Concatenation
import CraftScript.Proofs.DocumentText
import CraftScript.Proofs.QualifiedIds
import CraftScript.Proofs.RecipePaths
import CraftScript.Proofs.LineEndings
import CraftScript.Proofs.IssueOrder
import CraftScript.Proofs.CommentRegions
import CraftScript.Proofs.Restripping
import CraftScript.Proofs.Bytewise.Cuts
import CraftScript.Proofs.Bytewise.Scanning
import CraftScript.Proofs.SectionPlaces
import CraftScript.Proofs.Bytewise.Occurrences
import CraftScript.Proofs.Bytewise.Reading
import CraftScript.Proofs.BraceMatching
import CraftScript.Proofs.BlockSpans
import CraftScript.Proofs.RecipeLines
import CraftScript.Proofs.RecipeMatching
import CraftScript.Proofs.MapperRegions
import CraftScript.Proofs.MissingSections
import CraftScript.Proofs.SectionOrder
import CraftScript.Proofs.RecipeBraces
import CraftScript.Proofs.PropertyLayout
import CraftScript.Proofs.FluidAmounts
import CraftScript.Proofs.TagContents
import CraftScript.Proofs.ItemParts
import CraftScript.Proofs.AttributeOrder
import CraftScript.Proofs.SharedBlanks
import CraftScript.Proofs.ComponentOrder
import CraftScript.Proofs.SkinLabels
import CraftScript.Proofs.SpriteRows
import CraftScript.Proofs.FileSearch
import CraftScript.Proofs.FileGrowth
