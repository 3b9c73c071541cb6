import Gsm.Posix.Tree
import Gsm.Posix.Walk
import Gsm.Posix.Journal
import Gsm.Posix.Sys
import Gsm.Posix.Calls
import Gsm.Posix.Dirs
import Gsm.Data.RingBuffer
import Gsm.GoStd.Os
import Gsm.GoStd.Path
import Gsm.GoStd.Tar
import Gsm.Machine.Exec
import Gsm.Machine.Handlers
import Gsm.Instances.Configfiles
import Gsm.Instances.Record
import Gsm.Instances.List
import Gsm.Instfs.Resolve
import Gsm.Instfs.Files
import Gsm.Instfs.Archive
import Gsm.Instfs.Confinement
import Gsm.Instfs.NamedLinks
import Gsm.Instfs.Extraction
import Gsm.Backups.Restore
import Gsm.Backups.Links
import Gsm.Backups.Refused
import Gsm.Server.Rows
import Gsm.Link.System
import Gsm.Link.Status
import Gsm.Link.InstallFailed
import Gsm.Server.Console
import Gsm.Server.ConsoleOrder
import Gsm.Link.InstallConsole
import Gsm.Server.Installs
import Gsm.Firewall.Overlap
import Gsm.Firewall.Failures
import Gsm.Server.OpenPorts
import Gsm.Auth.Attempts
import Gsm.Auth.SignIns
import Gsm.Auth.PasswordChange
import Gsm.Nodes.Enrollment
import Gsm.Nodes.Presence
import Gsm.Ws.UiGateway
import Gsm.Machine.Call
import Gsm.Instances.Docker
import Gsm.Instances.Manager
import Gsm.Instances.Steps
import Gsm.Instances.Effects
import Gsm.Instances.Tracked
import Gsm.Instances.InstallCancel
import Gsm.Instances.CrashRestart
import Gsm.Instances.StartFailure
import Gsm.Instances.Removal
import Gsm.Instances.DatabaseKept
import Gsm.Data.Wildcard
import Gsm.GoStd.Match
import Gsm.GoStd.Slash
import Gsm.GoStd.Contents
import Gsm.Backups.Matcher
import Gsm.Backups.Create
import Gsm.Backups.RoundTrip
import Gsm.Server.BackupRows
import Gsm.Transport.Client
import Gsm.GoStd.Enclosed
import Gsm.Instances.Volumes
import Gsm.Instances.VolumeLinks
import Gsm.Instances.Binds
import Gsm.Data.JsText
import Gsm.GoStd.Json
import Gsm.Shared.Templates
import Gsm.Server.FileWrite
import Gsm.Server.Ports
import Gsm.Server.PortRows
import Gsm.Server.PlayerLines
import Gsm.Server.PlayerConsole
import Gsm.Server.PlayerRows
import Gsm.Instances.ConsoleLines
import Gsm.Server.Transfers
import Gsm.Server.TransferRuns
import Gsm.Posix.Owners
import Gsm.Instfs.Owners
import Gsm.Instfs.ExtractOwners
import Gsm.Instfs.ExtractLimit
import Gsm.Instances.Owners
import Gsm.Backups.Dump
import Gsm.Backups.Unopened
import Gsm.Instances.Restore
import Gsm.Server.PortBlocks
import Gsm.Server.PortSearch
import Gsm.Data.Trim
import Gsm.Server.PlayerActions
import Gsm.GoStd.Blank
import Gsm.GoStd.Lines
import Gsm.Data.Assoc
import Gsm.Instances.Properties
import Gsm.Instances.Ini
import Gsm.Data.Commands
import Gsm.Instances.SourceCfg
import Gsm.Data.Paths
import Gsm.GoStd.Document
import Gsm.Instances.JsonFile
import Gsm.Instances.YamlFile
import Gsm.Instfs.WriteRace
import Gsm.Backups.DumpDatabase
import Gsm.Instances.AgentWrites
import Gsm.Data.SlidingWindow
import Gsm.Instances.Crash
import Gsm.GoStd.Binary
import Gsm.Instances.Rcon
import Gsm.GoStd.Bufio
import Gsm.Instances.ReadLines
import Gsm.Instances.Batcher
import Gsm.Instances.TelnetReader
import Gsm.Server.PlayerAnswers
import Gsm.Instances.ConsoleLog
import Gsm.Posix.Lookups
import Gsm.Instfs.Listing
import Gsm.Instfs.Faults
import Gsm.Instfs.Atomic
import Gsm.Data.Comparator
import Gsm.Shared.Version
import Gsm.Auth.RateWindows
import Gsm.Server.Variables
import Gsm.Data.Base64
import Gsm.Server.SftpKeys
import Gsm.Server.AuditArchive
import Gsm.GoStd.Filled
import Gsm.Instances.SeedTree
import Gsm.Server.PortRuns
import Gsm.Data.ImageReference
import Gsm.Server.Spec
import Gsm.Sftpd.Connections
import Gsm.Sftpd.Sessions
import Gsm.Auth.PasswordReset
import Gsm.GoStd.Root
import Gsm.Sftpd.Handler
import Gsm.Server.Access
import Gsm.Server.Downloads
import Gsm.Link.Uploads
import Gsm.Server.Tickets
import Gsm.Logging.RotatingFile
