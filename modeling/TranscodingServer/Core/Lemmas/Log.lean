import TranscodingServer.Core.Lemmas.History
import TranscodingServer.Core.Statements

/-!
# What the log of the calls says about the service

The log alone, with the results of its calls, determines the streams and the client records.
-/

namespace TranscodingServer

open Lts

variable {gst : Gst} {s t : TranscodingService} {id uri : Str} {e : UriParts}
  {log : List (Call × Ret)} {l : Call × Ret}

/-- The call that a method makes of the service, if it is not one that leaves it as it is. -/
def Method.call? : Method × Answer → Option (Call × Ret)
  | (.AddRtsp env id uri, .uriParts r) => some (.AddRtsp env.now id uri, .uriParts r)
  | (.RemoveRtsp env id, .bool r) => some (.RemoveRtsp env.now id, .bool r)
  | (.setup_request_callback client session (some path), _) =>
    some (.AddClientInfo (some client) (session.getD (str "")) path, .void)
  | (.closed_callback client, _) => some (.RemoveClientWithClient (some client), .void)
  | _ => none

/-- Nothing is thrown but what the code throws itself. -/
def Method.Calm : Method → Prop
  | .AddRtsp env _ _ => env = Env.calm env.now
  | .RemoveRtsp env _ => env = Env.calm env.now
  | _ => True

end TranscodingServer
