import IrodsMicroservices.Text
import IrodsMicroservices.Status
import IrodsMicroservices.Paging
import IrodsMicroservices.Json
import IrodsMicroservices.Jansson
import IrodsMicroservices.JsonText
import IrodsMicroservices.ArchiveIndex
import IrodsMicroservices.GenQuery
import IrodsMicroservices.CatalogWalk
import IrodsMicroservices.CatalogTree
import IrodsMicroservices.WalkOrder
import IrodsMicroservices.ReplicaRows
import IrodsMicroservices.Session
import IrodsMicroservices.Libarchive
import IrodsMicroservices.ArchiveText
import IrodsMicroservices.ArchiveConstruct
import IrodsMicroservices.ArchiveCreate
import IrodsMicroservices.ArchiveEntries
import IrodsMicroservices.Attributes
import IrodsMicroservices.ArchiveExtract
import IrodsMicroservices.ArchiveLayout
import IrodsMicroservices.ProducedArchive
import IrodsMicroservices.RoundTrip
import IrodsMicroservices.RequestLog
import IrodsMicroservices.FreeSpace
import IrodsMicroservices.NamespaceTree
import IrodsMicroservices.SingleExtract
import IrodsMicroservices.ForeignArchive
import IrodsMicroservices.LexicalPath
import IrodsMicroservices.TargetPaths
import IrodsMicroservices.VaultTest
import IrodsMicroservices.Filesystem
import IrodsMicroservices.LinkTree
import IrodsMicroservices.PhysicalPath
import IrodsMicroservices.JsonArrayOps
import IrodsMicroservices.KeyedFold
import IrodsMicroservices.JsonObjOps
import IrodsMicroservices.JsonObjOrder
import IrodsMicroservices.JsonArraySearch
import IrodsMicroservices.JsonArrayLaws
import IrodsMicroservices.JsonValues
import IrodsMicroservices.VaultServices
import IrodsMicroservices.HostFiles
import IrodsMicroservices.VaultReports
import IrodsMicroservices.VaultListing
import IrodsMicroservices.VaultSecrecy
import IrodsMicroservices.JsonString
import IrodsMicroservices.EscapeJson
import IrodsMicroservices.EpicPid
import IrodsMicroservices.ShortWrites
import IrodsMicroservices.SpaceRefusal
import IrodsMicroservices.LogicalPaths
import IrodsMicroservices.RelativeNames
import IrodsMicroservices.OpenQueries
import IrodsMicroservices.CBuffers
import IrodsMicroservices.ResourceBuffers
import IrodsMicroservices.Handles
import IrodsMicroservices.Descriptors
import IrodsMicroservices.KeyedEdits
import IrodsMicroservices.PartialExtraction
import IrodsMicroservices.Retry
import IrodsMicroservices.IndexReport
import IrodsMicroservices.ArchiveStore
import IrodsMicroservices.Registers
import IrodsMicroservices.ModifyTimes
import IrodsMicroservices.ItemByItem
import IrodsMicroservices.AttributeRestore
import IrodsMicroservices.VaultAudit
import IrodsMicroservices.CurtailedWalk
import IrodsMicroservices.CurtailedArchive
import IrodsMicroservices.JsonSpelling
import IrodsMicroservices.PidRecord
import IrodsMicroservices.DocumentRuns
import IrodsMicroservices.VaultStat
