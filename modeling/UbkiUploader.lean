import UbkiUploader.Lib.Streak
import UbkiUploader.Lib.Pool
import UbkiUploader.Lib.LastWrite
import UbkiUploader.Lib.Machine
import UbkiUploader.Lib.Table
import UbkiUploader.Lib.Folder
import UbkiUploader.Lib.Text
import UbkiUploader.Lib.Lines
import UbkiUploader.Lib.Transaction
import UbkiUploader.Lib.Unicode
import UbkiUploader.Lib.Calendar
import UbkiUploader.Lib.Json
import UbkiUploader.Lib.JsonLoads
import UbkiUploader.Lib.Numbers
import UbkiUploader.Lib.JsonLaws
import UbkiUploader.Lib.JsonSound
import UbkiUploader.Lib.Fallible
import UbkiUploader.Lib.Spacing
import UbkiUploader.Lib.Chronology
import UbkiUploader.Lib.Intake
import UbkiUploader.Lib.Filing
import UbkiUploader.Lib.Grouping
import UbkiUploader.Config
import UbkiUploader.Db
import UbkiUploader.DbLaws
import UbkiUploader.Client
import UbkiUploader.Api
import UbkiUploader.Uploader.Wave
import UbkiUploader.Uploader.Send
import UbkiUploader.Uploader.Run
import UbkiUploader.Uploader.Trace
import UbkiUploader.Uploader.WaveLaws
import UbkiUploader.Uploader.Dispatch
import UbkiUploader.Uploader.Tally
import UbkiUploader.Uploader.SendLaws
import UbkiUploader.Uploader.Accounting
import UbkiUploader.Uploader.StaleSession
import UbkiUploader.Uploader.RunLaws
import UbkiUploader.Uploader.Lifecycle
import UbkiUploader.Uploader.PassRuns
import UbkiUploader.Uploader.FileStatus
import UbkiUploader.Uploader.Ingest
import UbkiUploader.Enricher.Cabinet
import UbkiUploader.Enricher.Identity
import UbkiUploader.Enricher.Line
import UbkiUploader.Client.Response
import UbkiUploader.Uploader.Alert
import UbkiUploader.Client.ResponseLaws
import UbkiUploader.Enricher.Issuers
import UbkiUploader.Enricher.Document
import UbkiUploader.Enricher.Package
import UbkiUploader.Enricher.File
import UbkiUploader.Enricher.Wire
import UbkiUploader.Enricher.FileLaws
import UbkiUploader.Enricher.Independence
import UbkiUploader.Enricher.PackageLaws
import UbkiUploader.Backfill.ExpandLaws
import UbkiUploader.Backfill.Readers
import UbkiUploader.Backfill.Expand
import UbkiUploader.Backfill.Chain
import UbkiUploader.Backfill.Sane
import UbkiUploader.Backfill.Frame
import UbkiUploader.RateLimit
import UbkiUploader.Uploader.RunStatus
import UbkiUploader.Enricher.DealOrder
import UbkiUploader.Client.Auth
import UbkiUploader.Backfill.Texts
import UbkiUploader.Backfill.Main
import UbkiUploader.Backfill.Fits
import UbkiUploader.Backfill.MainLaws
import UbkiUploader.Enricher.Written
import UbkiUploader.Enricher.Totality
import UbkiUploader.Enricher.Accounted
import UbkiUploader.Enricher.Quarantine
import UbkiUploader.Uploader.Ledger
import UbkiUploader.Enricher.Attempt
import UbkiUploader.Enricher.Rerun
import UbkiUploader.Uploader.Progress
import UbkiUploader.Uploader.Sessions
import UbkiUploader.Uploader.Provenance
import UbkiUploader.Uploader.Archive
import UbkiUploader.Uploader.Settled
import UbkiUploader.Health
import UbkiUploader.Enricher.Report
import UbkiUploader.Enricher.Run
import UbkiUploader.Pipeline.Processed
import UbkiUploader.Pipeline.Chores
import UbkiUploader.Pipeline.Origin
import UbkiUploader.Pipeline.Delivery
import UbkiUploader.Pipeline.Inbox
