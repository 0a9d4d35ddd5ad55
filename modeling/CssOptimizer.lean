import CssOptimizer.Main
import CssOptimizer.Proofs.Scan.Blocks
import CssOptimizer.Proofs.Scan.Comments
import CssOptimizer.Proofs.Sheet.Condition
import CssOptimizer.Proofs.Sheet.Spelling
import CssOptimizer.Proofs.Sheet.Reading
import CssOptimizer.Proofs.Sheet.Count
import CssOptimizer.Proofs.Sheet.ReadBack
import CssOptimizer.Proofs.Atomic.Cascade
import CssOptimizer.Proofs.Duplicates
import CssOptimizer.Proofs.Optimize
import CssOptimizer.Proofs.Duplicates.Cascade
import CssOptimizer.Proofs.Text.Names
import CssOptimizer.Proofs.Text.Occurrences
import CssOptimizer.Proofs.Selector.Names
import CssOptimizer.Proofs.Selector.Syntax
import CssOptimizer.Proofs.Usage.Matching
import CssOptimizer.Proofs.Usage.Tags
import CssOptimizer.Proofs.Routes.Narrow
import CssOptimizer.Proofs.Routes.Pages
import CssOptimizer.Proofs.Routes.Loose
import CssOptimizer.Proofs.Routes.Lists
import CssOptimizer.Proofs.Registry.ReadBack
import CssOptimizer.Proofs.Optimize.Size
import CssOptimizer.Proofs.Optimize.Again
import CssOptimizer.Proofs.Build.Modules
import CssOptimizer.Proofs.Build.Styles
import CssOptimizer.Proofs.Sheet.Range
import CssOptimizer.Proofs.Optimize.Sources
import CssOptimizer.Proofs.FirstPaint.Halves
import CssOptimizer.Proofs.FirstPaint.Merged
import CssOptimizer.Proofs.Atomic.Factored
import CssOptimizer.Proofs.Atomic.Naming
import CssOptimizer.Proofs.Atomic.Unrelated
import CssOptimizer.Proofs.Atomic.Fresh
import CssOptimizer.Proofs.Duplicates.Pass
import CssOptimizer.Proofs.Sheet.Concatenated
import CssOptimizer.Proofs.Usage.Unions
import CssOptimizer.Proofs.Selector.Separators
import CssOptimizer.Proofs.Usage.Templates
import CssOptimizer.Proofs.Usage.SelfClosing
import CssOptimizer.Proofs.Usage.StartTags
import CssOptimizer.Proofs.Optimize.Counts
import CssOptimizer.Proofs.Build.Runs
import CssOptimizer.Proofs.Routes.Files
import CssOptimizer.Proofs.Files.Emission
import CssOptimizer.Proofs.Build.MapLinks
import CssOptimizer.Proofs.Theme
import CssOptimizer.Proofs.Spellings
import CssOptimizer.Proofs.Utf8.Reading
import CssOptimizer.Proofs.Utf8.InStep
import CssOptimizer.Proofs.Utf8.Trackers
