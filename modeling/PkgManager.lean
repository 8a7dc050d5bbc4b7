import PkgManager.PkgSplit
import PkgManager.MultipartStream
import PkgManager.LiveContent
import PkgManager.LiveShield
import PkgManager.LiveLockstep
import PkgManager.MultipartReads
import PkgManager.MultipartPackage
import PkgManager.SmbPipeline
import PkgManager.SmbReads
import PkgManager.InstallThreads
import PkgManager.InstallMoves
import PkgManager.InstallStatus
import PkgManager.InstallWorkers
import PkgManager.InstallHandoff
import PkgManager.InstallCancel
import PkgManager.ControlMessages
import PkgManager.UploadServer
import PkgManager.UploadThreads
import PkgManager.UploadMoves
import PkgManager.UploadBytes
import PkgManager.UploadAuthorization
import PkgManager.UploadEnds
import PkgManager.UploadDisconnect
import PkgManager.UploadKept
import PkgManager.ConditionVariable
import PkgManager.StreamServer
import PkgManager.StreamStops
import PkgManager.StreamSessions
import PkgManager.InsertionOrder
import PkgManager.SegmentSender
import PkgManager.SegmentsKept
import PkgManager.UploadChanges
import PkgManager.UploadPage
import PkgManager.SegmentAnswers
import PkgManager.PageConnection
import PkgManager.PageTransfer
import PkgManager.PageAnswers
import PkgManager.PageRuns
import PkgManager.LiveLifetime
import PkgManager.Fragments
import PkgManager.FrameReassembly
import PkgManager.LiveBinding
import PkgManager.RangeReads
import PkgManager.PartSources
import PkgManager.StreamConnection
import PkgManager.PkgMetadata
import PkgManager.PkgParser
import PkgManager.ParserAgreement
import PkgManager.MetadataAgreement
import PkgManager.SmbAgreement
import PkgManager.Manifest
import PkgManager.QuotedText
import PkgManager.ManifestScan
import PkgManager.ManifestArrays
import PkgManager.ManifestSections
import PkgManager.ManifestRecords
import PkgManager.ManifestRoundTrip
import PkgManager.RecordCodec
import PkgManager.InstallIpc
import PkgManager.InstallHelper
import PkgManager.HelperSession
import PkgManager.HelperMatching
import PkgManager.MultipartDecompress
import PkgManager.WsReceive
import PkgManager.SmbShare
import PkgManager.Settings
import PkgManager.SettingsApi
import PkgManager.SettingsUpdates
import PkgManager.EscapedText
import PkgManager.SettingsFields
import PkgManager.SettingsRoundTrip
import PkgManager.JsonText
import PkgManager.LocalizedTitles
import PkgManager.LiveEviction
import PkgManager.LiveWaited
import PkgManager.LiveResume
import PkgManager.LiveAccepted
import PkgManager.LiveStamps
import PkgManager.LiveDemand
import PkgManager.FrameCodec
import PkgManager.ControlFields
import PkgManager.BoundedSort
import PkgManager.SmbBrowse
import PkgManager.QuickScan
import PkgManager.BlurhashUpdates
import PkgManager.FileTree
import PkgManager.Leftovers
import PkgManager.LeftoverRemoval
import PkgManager.SmbUrl
import PkgManager.ScanSources
import PkgManager.QuickLocality
import PkgManager.SettingsAnswer
import PkgManager.SettingsKept
import PkgManager.BlockBuffer
import PkgManager.SecureHash
import PkgManager.WsSha1
import PkgManager.RangeRequests
import PkgManager.RequestFraming
import PkgManager.StreamProgress
import PkgManager.SchemePrefix
import PkgManager.StreamBounds
import PkgManager.MultipartAssembly
import PkgManager.QuickIdempotence
import PkgManager.BoundedMemory
import PkgManager.SfoBounds
import PkgManager.JsonSearch
import PkgManager.MemBounds
import PkgManager.MemFields
import PkgManager.AesCipher
import PkgManager.SmbCmac
import PkgManager.Comparison
import PkgManager.PackageOrder
import PkgManager.VersionOrder
import PkgManager.ShareSlots
import PkgManager.SmbCredentials
import PkgManager.JsonDepth
import PkgManager.ShareListing
import PkgManager.SanitizeTwice
import PkgManager.DetailCache
import PkgManager.KeySearch
import PkgManager.TitleLookup
import PkgManager.TitleAgreement
import PkgManager.JsonItems
import PkgManager.PackageListing
import PkgManager.TitleRule
import PkgManager.PresentCounter
import PkgManager.LogNames
import PkgManager.LogRetention
import PkgManager.PageReads
import PkgManager.FullScan
import PkgManager.ScanThreads
import PkgManager.InstallLog
import PkgManager.ScanProgress
import PkgManager.ScanSerial
import PkgManager.CacheClear
import PkgManager.UploadListener
import PkgManager.PercentCode
import PkgManager.Routes
import PkgManager.Navigation
import PkgManager.NavigationRuns
