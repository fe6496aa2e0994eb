import AssetAudit.Naming.Pattern
import AssetAudit.Path
import AssetAudit.Category.Selection
import AssetAudit.Violation.Log
import AssetAudit.Condition.Rule
import AssetAudit.Inventory.Memory
import AssetAudit.Scan.Auditor
import AssetAudit.Scan.Complete
import AssetAudit.Json.Parser
import AssetAudit.Json.Printer
import AssetAudit.FileTree.Location
import AssetAudit.Inventory.Disk
import AssetAudit.Config.File
import AssetAudit.CommandLine.Run
import AssetAudit.Main
import AssetAudit.Proofs.FirstOccurrences
import AssetAudit.Proofs.CappedScan
import AssetAudit.Proofs.PrintedText
import AssetAudit.Proofs.Verdict
import AssetAudit.Proofs.Segments
import AssetAudit.Proofs.StoredPaths
import AssetAudit.Proofs.AssetWalk
import AssetAudit.Proofs.FormulaText
import AssetAudit.Proofs.WildcardRules
import AssetAudit.Proofs.IgnoredFolders
import AssetAudit.Proofs.RuleOutcomes
import AssetAudit.Proofs.StrayWildcards
import AssetAudit.Proofs.FileNames
import AssetAudit.Proofs.JsonTokens
import AssetAudit.Proofs.JsonText
import AssetAudit.Proofs.ConfigRoundTrip
import AssetAudit.Proofs.TreePaths
import AssetAudit.Proofs.FollowedNames
import AssetAudit.Proofs.TreeWalks
import AssetAudit.Proofs.DiskAgreement
import AssetAudit.Proofs.DiskScans
import AssetAudit.Proofs.FolderListings
import AssetAudit.Proofs.RowLimits
import AssetAudit.Proofs.ScanHistory
import AssetAudit.Proofs.RelaxedRules
import AssetAudit.Proofs.NameShapes
import AssetAudit.Proofs.PartialConfigs
import AssetAudit.Proofs.JsonReports
import AssetAudit.Proofs.WrittenFiles
import AssetAudit.Proofs.OwnFiles
import AssetAudit.Proofs.FormulaSegments
import AssetAudit.Proofs.ByteOrder
import AssetAudit.Proofs.SegmentQueries
import AssetAudit.Proofs.FolderChecks
import AssetAudit.Proofs.InsertionOrder
import AssetAudit.Proofs.LogHistory
import AssetAudit.Proofs.SmallLetters
import AssetAudit.Proofs.AssetCategories
import AssetAudit.Proofs.TableReading
import AssetAudit.Proofs.TextReports
import AssetAudit.Proofs.SkippedChecks
import AssetAudit.Proofs.ShownPaths
