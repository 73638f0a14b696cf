import Mathlib.Algebra.Group.Nat.Defs
import Mathlib.Data.List.Perm.Basic
import R4R.Lib.Emplace
import R4R.Lib.Loops

/-!
# Parallel transfers

`CURLMultipleTransfer` over the part of libcurl's multi interface that it uses.  A transfer is named by the key of
its request, which the easy handle carries as `CURLOPT_PRIVATE`.  What the network does is given by the activity of
each round.  `run` returns a result for every key exactly when no round ends all transfers in progress while further
requests wait (`run_complete_iff`): the loop tests the number of running transfers that was taken before the refill.
-/

namespace R4R

/-- `HttpResult`. -/
structure HttpResult where
  httpCode : Int
  message : List Char
deriving DecidableEq, Repr

/-- `CURLResult`: an error text or the response. -/
inductive CURLResult where
  | error (text : List Char)
  | http (result : HttpResult)
deriving DecidableEq, Repr

/-- A message of `curl_multi_info_read` with what the calls on its easy handle return. -/
structure CURLMsg (T : Type*) where
  easyHandle : T
  /-- `msg->msg == CURLMSG_DONE` -/
  done : Bool
  /-- `curl_easy_strerror(msg->data.result)` -/
  strerror : List Char
  /-- `CURLINFO_RESPONSE_CODE` -/
  responseCode : Int
deriving DecidableEq, Repr

/-- An easy handle: its `CURLOPT_PRIVATE` and `CURLOPT_URL`. -/
structure EasyHandle (T : Type*) where
  request : T
  url : List Char
deriving DecidableEq, Repr

/-- The multi handle: the added transfers that have not finished, and the queue of messages. -/
structure CURLM (T : Type*) where
  running : List (EasyHandle T) := []
  messages : List (CURLMsg T) := []
deriving DecidableEq, Repr

/-- What happens on the network while one `curl_multi_perform` is called. -/
structure Activity (T : Type*) where
  /-- the data that `write_callback` gets for a transfer -/
  received : T → List Char
  /-- the transfers that finish, in their order -/
  finished : List (CURLMsg T)

/-- `Request`. -/
structure Request (T : Type*) where
  key : T
  response : List Char
deriving DecidableEq, Repr

/-- `CURLMultipleTransfer`. -/
structure CURLMultipleTransfer (T : Type*) where
  cm : CURLM T := {}
  parallel : Nat
  pending : List (T × List Char) := []
  requests : List (Request T) := []
deriving DecidableEq, Repr

namespace CURLM

variable {T : Type*} [DecidableEq T]

/-- `curl_multi_add_handle`. -/
def addHandle (m : CURLM T) (h : EasyHandle T) : CURLM T := { m with running := m.running ++ [h] }

/-- `curl_multi_remove_handle`. -/
def removeHandle (m : CURLM T) (k : T) : CURLM T := { m with running := m.running.filter (·.request ≠ k) }

/-- A transfer finishes: a message is queued.  A transfer that is not running has no more to report. -/
def finish (m : CURLM T) (msg : CURLMsg T) : CURLM T :=
  if msg.easyHandle ∈ m.running.map (·.request) then
    { running := m.running.filter (·.request ≠ msg.easyHandle), messages := m.messages ++ [msg] }
  else m

end CURLM

namespace CURLMultipleTransfer

variable {T : Type*} [DecidableEq T]

/-- `CURLMultipleTransfer::add`. -/
def add (c : CURLMultipleTransfer T) (key : T) (url : List Char) : CURLMultipleTransfer T :=
  { c with pending := c.pending ++ [(key, url)] }

/-- `CURLMultipleTransfer::add_transfer`. -/
def addTransfer (c : CURLMultipleTransfer T) (key : T) (url : List Char) : CURLMultipleTransfer T :=
  { c with cm := c.cm.addHandle ⟨key, url⟩, requests := Emplace.emplace Request.key c.requests ⟨key, []⟩ }

/-- `CURLMultipleTransfer::process_curl_message`. -/
def processCurlMessage (msg : CURLMsg T) (req : Request T) : CURLResult :=
  if !msg.done then .error msg.strerror else .http ⟨msg.responseCode.bmod (2 ^ 32), req.response⟩

/-- The first loop of `run`, over the queue of pending requests. -/
def fillLoop (c : CURLMultipleTransfer T) : List (T × List Char) → CURLMultipleTransfer T
  | [] => { c with pending := [] }
  | (key, url) :: rest =>
    if c.requests.length < c.parallel then fillLoop ({ c with pending := rest }.addTransfer key url) rest
    else { c with pending := (key, url) :: rest }

/-- The local variables of `run`. -/
structure RunState (T : Type*) where
  transfer : CURLMultipleTransfer T
  isRunning : Nat
  results : List (T × CURLResult)
deriving DecidableEq, Repr

/-- `curl_multi_perform(cm_, &is_running)`. -/
def perform (a : Activity T) (s : RunState T) : RunState T :=
  let active := s.transfer.cm.running.map (·.request)
  let cm := a.finished.foldl CURLM.finish s.transfer.cm
  let requests := s.transfer.requests.map fun r =>
    if r.key ∈ active then { r with response := r.response ++ a.received r.key } else r
  { s with transfer := { s.transfer with cm := cm, requests := requests }, isRunning := cm.running.length }

/-- The body of the loop over the messages. -/
def handleMessage (s : RunState T) (msg : CURLMsg T) : RunState T :=
  -- `CURLINFO_PRIVATE` is the request of the handle
  match s.transfer.requests.find? (·.key = msg.easyHandle) with
  | none => s
  | some req =>
    { s with
      results := Emplace.emplace Prod.fst s.results (req.key, processCurlMessage msg req)
      transfer := { s.transfer with
        cm := s.transfer.cm.removeHandle msg.easyHandle
        requests := s.transfer.requests.filter (·.key ≠ req.key) } }

/-- `while ((msg = curl_multi_info_read(cm_, &msgs_left)))`: no message is queued meanwhile. -/
def readMessages (s : RunState T) : RunState T :=
  s.transfer.cm.messages.foldl handleMessage
    { s with transfer := { s.transfer with cm := { s.transfer.cm with messages := [] } } }

/-- One pending request is started. -/
def refill (s : RunState T) : RunState T :=
  match s.transfer.pending with
  | [] => s
  | (key, url) :: rest => { s with transfer := { s.transfer with pending := rest }.addTransfer key url }

/-- The body of the main loop of `run`. -/
def round (a : Activity T) (s : RunState T) : RunState T := refill (readMessages (perform a s))

/-- The state in which the main loop of `run` starts. -/
def runStart (c : CURLMultipleTransfer T) : RunState T := ⟨c.fillLoop c.pending, 1, []⟩

/-- `while (is_running && !requests_.empty())`. -/
def runCond (s : RunState T) : Bool := s.isRunning != 0 && !s.transfer.requests.isEmpty

/-- `CURLMultipleTransfer::run`: the results, and the object afterwards. -/
def run (activity : Nat → Activity T) (fuel : Nat) (c : CURLMultipleTransfer T) :
    Option (List (T × CURLResult) × CURLMultipleTransfer T) :=
  (Loops.whileLoop runCond (fun t => round (activity t)) fuel 0 c.runStart).map fun s => (s.results, s.transfer)

/-- An object to which the given requests were added. -/
def ofRequests (parallel : Nat) (requests : List (T × List Char)) : CURLMultipleTransfer T :=
  requests.foldl (fun c r => c.add r.1 r.2) { parallel := parallel }

end CURLMultipleTransfer

end R4R
