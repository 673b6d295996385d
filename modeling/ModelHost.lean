import ModelHost.ClientVersion
import ModelHost.Completion.Request
import ModelHost.Completion.Response
import ModelHost.Completion.Run
import ModelHost.Completion.Sampler
import ModelHost.Completion.Trail
import ModelHost.Descriptor
import ModelHost.Digest.Sha256
import ModelHost.Disk.Basic
import ModelHost.Disk.Edit
import ModelHost.Download.Job
import ModelHost.Download.Record
import ModelHost.Download.Table
import ModelHost.Host
import ModelHost.HostError
import ModelHost.Inference.Backend
import ModelHost.Json.Basic
import ModelHost.Json.Reader
import ModelHost.Json.Record
import ModelHost.Json.Writer
import ModelHost.Number.Numeral
import ModelHost.Number.Shortest
import ModelHost.Number.Single
import ModelHost.Path
import ModelHost.Proofs.ClientVersion
import ModelHost.Proofs.Completion.Calls
import ModelHost.Proofs.Completion.Counts
import ModelHost.Proofs.Completion.Delivery
import ModelHost.Proofs.Completion.Draws
import ModelHost.Proofs.Completion.Failures
import ModelHost.Proofs.Completion.Output
import ModelHost.Proofs.Completion.Renewal
import ModelHost.Proofs.Completion.Sampler
import ModelHost.Proofs.Completion.Selection
import ModelHost.Proofs.Completion.Spending
import ModelHost.Proofs.Completion.Window
import ModelHost.Proofs.Disk.Alike
import ModelHost.Proofs.Disk.Ancestors
import ModelHost.Proofs.Disk.Directories
import ModelHost.Proofs.Disk.Replace
import ModelHost.Proofs.Disk.Sight
import ModelHost.Proofs.Disk.Vacancy
import ModelHost.Proofs.Disk.Walk
import ModelHost.Proofs.Download.Account
import ModelHost.Proofs.Download.Births
import ModelHost.Proofs.Download.Confinement
import ModelHost.Proofs.Download.Course
import ModelHost.Proofs.Download.Fetches
import ModelHost.Proofs.Download.Job
import ModelHost.Proofs.Download.Jobs
import ModelHost.Proofs.Download.Leftovers
import ModelHost.Proofs.Download.Neighbours
import ModelHost.Proofs.Download.Origins
import ModelHost.Proofs.Download.Part
import ModelHost.Proofs.Download.Records
import ModelHost.Proofs.Download.Shutdown
import ModelHost.Proofs.Download.Snapshots
import ModelHost.Proofs.Download.Table
import ModelHost.Proofs.Download.Targets
import ModelHost.Proofs.Download.World
import ModelHost.Proofs.Host.Downloads
import ModelHost.Proofs.Host.Handles
import ModelHost.Proofs.Host.LocalFiles
import ModelHost.Proofs.Host.Requests
import ModelHost.Proofs.Host.Residency
import ModelHost.Proofs.Inference.Alike
import ModelHost.Proofs.Inference.Dialogue
import ModelHost.Proofs.Inference.Gate
import ModelHost.Proofs.Inference.Session
import ModelHost.Proofs.Json.Documents
import ModelHost.Proofs.Json.Record
import ModelHost.Proofs.Json.Text
import ModelHost.Proofs.Path
import ModelHost.Proofs.Settings
import ModelHost.Proofs.Store
import ModelHost.Proofs.Text.ByteGate
import ModelHost.Proofs.Text.Encoding
import ModelHost.Proofs.Text.Holding
import ModelHost.Proofs.Text.Lossy
import ModelHost.Proofs.Text.Split
import ModelHost.Proofs.Text.Stops
import ModelHost.Proofs.Text.Unsigned
import ModelHost.Proofs.Text.Utf8
import ModelHost.Proofs.TextVector
import ModelHost.Proofs.Traverse
import ModelHost.Settings
import ModelHost.Store
import ModelHost.Text.Alphanumeric
import ModelHost.Text.Basic
import ModelHost.Text.Stops
import ModelHost.Text.Utf8
import ModelHost.TextVector
