import DesignTokens.Main
import DesignTokens.Layout.Writer
import DesignTokens.Proofs.Prune
import DesignTokens.Proofs.CycleCheck
import DesignTokens.Proofs.Compile
import DesignTokens.Proofs.Lookups
import DesignTokens.Proofs.Stylesheet
import DesignTokens.Proofs.Verdict
import DesignTokens.Proofs.NameCycles
import DesignTokens.Proofs.Build
import DesignTokens.Proofs.Protection
import DesignTokens.Proofs.Layering
import DesignTokens.Proofs.SheetLines
import DesignTokens.Proofs.Survivors
import DesignTokens.Proofs.Canonical
import DesignTokens.Proofs.Metadata
import DesignTokens.Proofs.Grammar
import DesignTokens.Proofs.Fallbacks
import DesignTokens.Proofs.Rebuild
import DesignTokens.Proofs.Battery
import DesignTokens.Proofs.Search
import DesignTokens.Proofs.Listing
import DesignTokens.Proofs.Partition
import DesignTokens.Proofs.Removal
import DesignTokens.Proofs.Spelling
import DesignTokens.Proofs.Wrapping
import DesignTokens.Proofs.Gates
import DesignTokens.Proofs.Independence
import DesignTokens.Proofs.Overrides
import DesignTokens.Proofs.NormalNames
