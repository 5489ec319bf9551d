import Scambio.Commons.Auth
import Scambio.Commons.CString
import Scambio.Commons.Disk
import Scambio.Commons.Groups
import Scambio.Commons.Host
import Scambio.Commons.Pasted
import Scambio.Commons.Path
import Scambio.Commons.Persist
import Scambio.Commons.PositionalIO
import Scambio.Commons.ReadLines
import Scambio.Commons.Varbuf
import Scambio.Commons.VarbufMemory
import Scambio.Lib.Agreement
import Scambio.Lib.Answer
import Scambio.Lib.AnswerLines
import Scambio.Lib.Atomicity
import Scambio.Lib.Broadcast
import Scambio.Lib.Channel
import Scambio.Lib.Cmd
import Scambio.Lib.CmdLines
import Scambio.Lib.CmdSafe
import Scambio.Lib.CmdTokens
import Scambio.Lib.CmdTypes
import Scambio.Lib.CmdWords
import Scambio.Lib.Cnx
import Scambio.Lib.Connecter
import Scambio.Lib.CopySizes
import Scambio.Lib.Crash
import Scambio.Lib.Dirs
import Scambio.Lib.DirsFrame
import Scambio.Lib.Error
import Scambio.Lib.FileTransfer
import Scambio.Lib.Folder
import Scambio.Lib.FolderChanges
import Scambio.Lib.Fragments
import Scambio.Lib.Header
import Scambio.Lib.HeaderBounds
import Scambio.Lib.HeaderFiles
import Scambio.Lib.HeaderRelay
import Scambio.Lib.HeaderText
import Scambio.Lib.HeaderWire
import Scambio.Lib.JoinedFragments
import Scambio.Lib.Journal
import Scambio.Lib.JournalLayout
import Scambio.Lib.LastArg
import Scambio.Lib.LifeCycle
import Scambio.Lib.ListOnce
import Scambio.Lib.Listing
import Scambio.Lib.LossyTransfer
import Scambio.Lib.MarkChains
import Scambio.Lib.MarkIndex
import Scambio.Lib.MarkThreads
import Scambio.Lib.Mdir
import Scambio.Lib.MdirNames
import Scambio.Lib.Mdirc
import Scambio.Lib.Msg
import Scambio.Lib.OneStruct
import Scambio.Lib.ParseMemory
import Scambio.Lib.PatchOutcome
import Scambio.Lib.PatchSpec
import Scambio.Lib.PlainLog
import Scambio.Lib.PlainMdir
import Scambio.Lib.PowerLoss
import Scambio.Lib.ReadNext
import Scambio.Lib.Readback
import Scambio.Lib.Reception
import Scambio.Lib.Refinement
import Scambio.Lib.Refresh
import Scambio.Lib.RefreshRuns
import Scambio.Lib.Reload
import Scambio.Lib.Retransmit
import Scambio.Lib.Runs
import Scambio.Lib.Sender
import Scambio.Lib.Seqnums
import Scambio.Lib.Store
import Scambio.Lib.Stream
import Scambio.Lib.StreamCounts
import Scambio.Lib.Transients
import Scambio.Library.Base64
import Scambio.Library.Decimal
import Scambio.Library.FileTree
import Scambio.Library.Gregorian
import Scambio.Library.Infix
import Scambio.Library.Interleaving
import Scambio.Library.LittleEndian
import Scambio.Library.Munch
import Scambio.Library.Pieces
import Scambio.Library.Pointers
import Scambio.Library.Ranked
import Scambio.Library.Search
import Scambio.Library.Segments
import Scambio.Library.Splice
import Scambio.Library.ThreeWay
import Scambio.Library.Tokens
import Scambio.Library.Traces
import Scambio.Library.WordLists
import Scambio.Library.Words
import Scambio.Mdsyncc.Acks
import Scambio.Mdsyncc.Client
import Scambio.Mdsyncc.ClientRuns
import Scambio.Mdsyncc.Convergence
import Scambio.Mdsyncc.LocalId
import Scambio.Mdsyncc.Pending
import Scambio.Mdsyncc.Replica
import Scambio.Mdsyncc.Replicas
import Scambio.Mdsyncd.Authority
import Scambio.Mdsyncd.Queries
import Scambio.Mdsyncd.Relay
import Scambio.Mdsyncd.Resets
import Scambio.Mdsyncd.Subscription
import Scambio.Merefs.Actions
import Scambio.Merefs.Confined
import Scambio.Merefs.File
import Scambio.Merefs.Frames
import Scambio.Merefs.Idle
import Scambio.Merefs.Local
import Scambio.Merefs.Map
import Scambio.Merefs.Merge
import Scambio.Merefs.Pass
import Scambio.Merefs.Readmdir
import Scambio.Merefs.Remote
import Scambio.Merefs.Traversal
import Scambio.Merefs.Walk
import Scambio.Sendmail.Acker
import Scambio.Sendmail.Crawler
import Scambio.Sendmail.Delivery
import Scambio.Sendmail.Forwarder
import Scambio.Sendmail.Mailer
import Scambio.Sendmail.Passage
import Scambio.Sendmail.SendFile
import Scambio.Sendmail.SmtpLines
import Scambio.Sendmail.Transactions
import Scambio.Sendmail.Wire
import Scambio.Smtpd.Attachments
import Scambio.Smtpd.Base64
import Scambio.Smtpd.Folded
import Scambio.Smtpd.MailSafe
import Scambio.Smtpd.Multipart
import Scambio.Smtpd.Nodes
import Scambio.Smtpd.Parameters
import Scambio.Smtpd.Parse
import Scambio.Smtpd.ProcessMail
import Scambio.Smtpd.Queries
import Scambio.Smtpd.QuotedPrintable
import Scambio.Smtpd.Recipients
import Scambio.Stribution.Conditions
import Scambio.Stribution.Daemon
import Scambio.Stribution.Evaluation
import Scambio.Stribution.Lexer
import Scambio.Stribution.MarkTargets
import Scambio.Stribution.Parser
import Scambio.Stribution.Printing
import Scambio.Stribution.Restart
import Scambio.Stribution.Rules
import Scambio.Vadrouille.CalDate
import Scambio.Vadrouille.Calendar
import Scambio.Vadrouille.DateOrder
