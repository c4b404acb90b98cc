import P11k.Lib.PrefixOrder
import P11k.Gitstatus.Entry
import P11k.Gitstatus.Path
import P11k.Lib.BinarySearch
import P11k.Lib.Machine
import P11k.Lib.Markers
import P11k.Lib.Utf8
import P11k.Lib.Text
import P11k.Lib.Framing
import P11k.Lib.StableSort
import P11k.Gitstatus.IndexTree
import P11k.Gitstatus.TreeShape
import P11k.Gitstatus.Scan
import P11k.Gitstatus.Shards
import P11k.Gitstatus.MergeJoin
import P11k.Gitstatus.Candidates
import P11k.Gitstatus.DirScan
import P11k.Gitstatus.Duplicates
import P11k.Gitstatus.Dirty
import P11k.Gitstatus.Tracked
import P11k.Gitstatus.IgnoreCase
import P11k.Gitstatus.Flagged
import P11k.Engine.Loop
import P11k.Engine.Repaint
import P11k.Engine.Status
import P11k.Engine.Reserved
import P11k.Engine.Signal
import P11k.Engine.Placement
import P11k.Engine.GitWorker
import P11k.Engine.ReloadRequest
import P11k.Engine.Announce
import P11k.Gitstatus.Resident
import P11k.Gitstatus.CachedScan
import P11k.Gitstatus.Transparent
import P11k.Gitstatus.Protocol
import P11k.Gitstatus.GitView
import P11k.Gitstatus.Daemon
import P11k.Gitstatus.Independent
import P11k.Gitstatus.Lookup
import P11k.Gitstatus.Below
import P11k.Gitstatus.Untracked
import P11k.Gitstatus.Partition
import P11k.Lib.SortedMap
import P11k.Settings.Types
import P11k.Settings.Parse
import P11k.Settings.Write
import P11k.Settings.Readable
import P11k.Settings.RoundTrip
import P11k.Lib.PromptStrings
import P11k.Settings.Lookup
import P11k.Render.Paint
import P11k.Render.Prefix
import P11k.Render.Encodings
import P11k.Render.Unquoted
import P11k.Render.Glob
import P11k.Render.Icons
import P11k.Render.Row
import P11k.Lib.Terminal
import P11k.Render.Drawn
import P11k.Render.Foreign
import P11k.Render.Outside
import P11k.Render.Shorten
import P11k.Render.Probes
import P11k.Render.Segments
import P11k.Render.Injection
import P11k.Render.Fits
import P11k.Lib.KdlString
import P11k.Settings.Quote
import P11k.Settings.ColorText
import P11k.Engine.AnnounceReads
import P11k.Render.Columns
import P11k.Render.Aligned
import P11k.Render.AbsoluteTail
import P11k.Render.MarkerRuns
import P11k.Render.UniqueBudget
import P11k.Render.UniquePrefix
import P11k.Render.PrefixCache
import P11k.Render.KeptEnds
import P11k.Gitstatus.Fnmatch
import P11k.Gitstatus.Arguments
import P11k.Gitstatus.Spellings
import P11k.Gitstatus.ShardArithmetic
import P11k.Gitstatus.Limits
import P11k.Gitstatus.Presence
import P11k.Lib.Overrides
import P11k.Settings.Repeated
import P11k.Render.Visible
import P11k.Render.Joined
import P11k.Render.Disabled
import P11k.Lib.Wildcard
import P11k.Render.GlobLanguage
import P11k.Render.Alternatives
import P11k.Render.AlternativesLanguage
import P11k.Render.AlternativesMeaning
import P11k.Engine.FailedReload
import P11k.Engine.TerminalReplies
import P11k.Engine.CommandDuration
import P11k.Lib.Percent
import P11k.Render.LinkTargets
import P11k.Gitstatus.ResponseFraming
import P11k.Gitstatus.TreeOrder
import P11k.Lib.Replace
import P11k.Render.PwshPrefix
import P11k.Lib.Screen
import P11k.Engine.ScreenOutput
import P11k.Engine.PromptWindow
import P11k.Engine.PromptPlace
import P11k.Engine.FirstPrompt
import P11k.Render.OnScreen
import P11k.Engine.Handshake
import P11k.Engine.Schedule
import P11k.Engine.Delivery
import P11k.Engine.CatchUp
import P11k.Engine.Sessions
import P11k.Settings.Presets
import P11k.Lib.Dialogue
import P11k.Wizard.Flow
import P11k.Wizard.Keys
import P11k.Wizard.Themes
import P11k.Wizard.Written
import P11k.Gitstatus.Replies
import P11k.Engine.Converged
import P11k.Engine.VcsStatus
import P11k.Engine.Reflow
