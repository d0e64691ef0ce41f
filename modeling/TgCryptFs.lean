import TgCryptFs.Library.CallTree
import TgCryptFs.Library.Table
import TgCryptFs.Library.Transaction
import TgCryptFs.Library.BitBuffer
import TgCryptFs.Library.RelatedTables
import TgCryptFs.Library.Words
import TgCryptFs.Library.Wildcards
import TgCryptFs.Library.ByteRange
import TgCryptFs.Library.ParentLinks
import TgCryptFs.Library.LinkedTree
import TgCryptFs.Library.Runs
import TgCryptFs.Core.Crypto
import TgCryptFs.Core.Sample
import TgCryptFs.Core.Metadata
import TgCryptFs.Store.Database
import TgCryptFs.Store.Tree
import TgCryptFs.Fuse.Handle
import TgCryptFs.Fuse.Calls
import TgCryptFs.Fuse.Fs
import TgCryptFs.Cache.BlockCache
import TgCryptFs.Cache.Freshness
import TgCryptFs.Cache.Limit
import TgCryptFs.Cache.Locked
import TgCryptFs.Cache.Lru
import TgCryptFs.Cache.SharedCache
import TgCryptFs.Fuse.Serve
import TgCryptFs.Fuse.Spared
import TgCryptFs.Fuse.Effects
import TgCryptFs.Fuse.Service
import TgCryptFs.Fuse.Transactions
import TgCryptFs.Fuse.Namespace
import TgCryptFs.Fuse.TreeInvariant
import TgCryptFs.Fuse.Atomicity
import TgCryptFs.Fuse.CrashPoints
import TgCryptFs.Fuse.CrashConsistency
import TgCryptFs.Fuse.Confidentiality
import TgCryptFs.Fuse.HandleEffects
import TgCryptFs.Fuse.HandleIdentity
import TgCryptFs.Fuse.DataEffects
import TgCryptFs.Fuse.Storage
import TgCryptFs.Fuse.Reading
import TgCryptFs.Fuse.Flushing
import TgCryptFs.Fuse.Durability
import TgCryptFs.Fuse.FileImage
import TgCryptFs.Fuse.FileContent
import TgCryptFs.Fuse.Overwrite
import TgCryptFs.Fuse.SharedFile
import TgCryptFs.Fuse.Truncation
import TgCryptFs.Fuse.Integrity
import TgCryptFs.Fuse.BlockEffects
import TgCryptFs.Library.Tally
import TgCryptFs.Library.FileSystem
import TgCryptFs.Core.Shred
import TgCryptFs.Core.Volume
import TgCryptFs.Core.OpenVolume
import TgCryptFs.Deadman.Destroy
import TgCryptFs.Deadman.Daemon
import TgCryptFs.Deadman.Heartbeat
import TgCryptFs.Deadman.Hooks
import TgCryptFs.Deadman.MissedChecks
import TgCryptFs.Deadman.Phases
import TgCryptFs.Deadman.GracePeriod
import TgCryptFs.Fuse.References
import TgCryptFs.Fuse.Pointers
import TgCryptFs.Cli.Rotate
import TgCryptFs.Cli.RecordLinks
import TgCryptFs.Cli.RotationCoverage
import TgCryptFs.Api.Session
import TgCryptFs.Api.OneSession
import TgCryptFs.Api.Deletion
import TgCryptFs.Core.Sentence
import TgCryptFs.Core.CanonicalSentence
import TgCryptFs.Core.Sealing
import TgCryptFs.Core.Srb1
import TgCryptFs.Core.ChunkSizes
import TgCryptFs.Core.Compress
import TgCryptFs.Sharing.Invite
import TgCryptFs.Store.Records
import TgCryptFs.Store.Sharing
import TgCryptFs.Store.InviteRecords
import TgCryptFs.Store.SampleRecords
import TgCryptFs.Store.InviteUses
import TgCryptFs.Store.Revocation
import TgCryptFs.Api.Sharing
import TgCryptFs.Api.AcceptInvite
import TgCryptFs.Api.Handlers
import TgCryptFs.Cli.Sharing
import TgCryptFs.Cli.InviteLimits
import TgCryptFs.Store.InodeRows
import TgCryptFs.Store.InodeMap
import TgCryptFs.Store.InodeRefinement
import TgCryptFs.Store.Identity
import TgCryptFs.Core.Policy
import TgCryptFs.Core.Glob
import TgCryptFs.Store.MetaStores
import TgCryptFs.Store.MetaDb
import TgCryptFs.Store.SealedRows
import TgCryptFs.Store.MetaReads
import TgCryptFs.Store.Substitution
import TgCryptFs.Store.OpenedRows
import TgCryptFs.Store.VolumeShares
import TgCryptFs.Store.FlagColumns
import TgCryptFs.Library.Cursor
import TgCryptFs.Library.Recency
import TgCryptFs.Library.RefCounts
import TgCryptFs.Core.Dedup
import TgCryptFs.Store.Dedup
import TgCryptFs.Library.Consecutive
import TgCryptFs.Core.Cdc
import TgCryptFs.Core.Manifest
import TgCryptFs.Core.ManifestWords
import TgCryptFs.Fuse.BlockReads
import TgCryptFs.Fuse.RowInvariants
import TgCryptFs.Fuse.ObservedRows
import TgCryptFs.Fuse.SelfRename
import TgCryptFs.Fuse.OtherFiles
import TgCryptFs.Fuse.OneHandle
import TgCryptFs.Fuse.LinkCounts
import TgCryptFs.Fuse.DirectoryPages
import TgCryptFs.Deadman.DeadmanService
import TgCryptFs.Deadman.Disabled
import TgCryptFs.Library.FairRuns
import TgCryptFs.Library.PathResolution
import TgCryptFs.Deadman.Rearming
import TgCryptFs.Core.Sweep
import TgCryptFs.Core.Containment
import TgCryptFs.Deadman.ShredInside
import TgCryptFs.Library.Text
import TgCryptFs.Core.PolicyParser
import TgCryptFs.Core.PolicyGrammar
import TgCryptFs.Core.PolicyTotality
import TgCryptFs.Core.PolicyValues
import TgCryptFs.Core.PolicyRendering
import TgCryptFs.Cli.PasswordGate
import TgCryptFs.Core.BitRanges
import TgCryptFs.Core.RollingWindow
import TgCryptFs.Library.LengthPrefix
import TgCryptFs.Store.OpaqueSchema
import TgCryptFs.Library.LossyKey
import TgCryptFs.Store.SnapshotListings
import TgCryptFs.Library.Replacement
import TgCryptFs.Library.Tokens
import TgCryptFs.Library.Renaming
import TgCryptFs.Store.QueryRewriter
import TgCryptFs.Library.Pool
import TgCryptFs.Library.Results
import TgCryptFs.Telegram.Client
import TgCryptFs.Telegram.Effects
import TgCryptFs.Telegram.Attempts
import TgCryptFs.Telegram.Transfers
import TgCryptFs.Telegram.Completion
import TgCryptFs.Telegram.SavedMessages
import TgCryptFs.Telegram.Login
import TgCryptFs.Library.Catalogue
import TgCryptFs.Store.Migrations
import TgCryptFs.Cli.Configuration
import TgCryptFs.Library.FileGrowth
import TgCryptFs.Core.VolumeDirectory
import TgCryptFs.Cli.VolumeHistory
import TgCryptFs.Cli.KeyRecovery
import TgCryptFs.Library.Clients
import TgCryptFs.Api.Routes
import TgCryptFs.Api.Server
import TgCryptFs.Api.Gate
import TgCryptFs.Api.ServerHistory
