import TranscodingServer.Library.Text
import TranscodingServer.Library.Runs
import TranscodingServer.Library.Throwing
import TranscodingServer.Library.Triple
import TranscodingServer.Library.OrdMap
import TranscodingServer.Library.Pool
import TranscodingServer.Library.Locking
import TranscodingServer.Library.Statements
import TranscodingServer.Library.Reading
import TranscodingServer.Library.Patterns
import TranscodingServer.Core.UriParts
import TranscodingServer.Core.Gst
import TranscodingServer.Core.Service
import TranscodingServer.Core.Calls
import TranscodingServer.Core.Statements
import TranscodingServer.Core.Lemmas.Statements
import TranscodingServer.Core.Lemmas.Sturdy
import TranscodingServer.Core.Threads
import TranscodingServer.Core.Lemmas.ParseUri
import TranscodingServer.Core.Lemmas.Spec
import TranscodingServer.Core.Lemmas.Tables
import TranscodingServer.Core.Lemmas.Invariants
import TranscodingServer.Core.Lemmas.History
import TranscodingServer.Core.Lemmas.Mounts
import TranscodingServer.Core.Theorems
import TranscodingServer.Rtsp.Theorems
import TranscodingServer.Http.Theorems
import TranscodingServer.Json.Theorems
import TranscodingServer.Http.Wire
import TranscodingServer.Http.Responses
import TranscodingServer.Uri.Theorems
import TranscodingServer.Routing.Files
import TranscodingServer.Routing.Front
