import Mathlib
import GrainStore.Server.Daemon
import GrainStore.Vector.Split

/-!
# The HTTP interface of the daemon

A request is dispatched on its method and the path of its URL, and its body is decoded before the
store is touched: what is left to do is a `Job`.  The answer of a job is an `Answer`, and a
`HttpResponse` is how it is sent.  `handle` carries out one request after the other; how requests are
carried out at the same time is in `Server/Service`.

A query panics when there is no room for its candidates.  The request is then not answered, and the
thread that had it is gone.

The parser of a JSON text, the embedder of a text and the vector index are parameters.  The text of
a response is kept as the JSON value that it is written from.
-/

namespace GrainStore

open FixedWidth

/-- The text of an error. -/
def Error.display : Error → String
  | .io e => "i/o error: " ++ e.message
  | .corrupt m => "corrupt data: " ++ m
  | .closed => "committer is closed"
  | .denied m => "denied: " ++ m

/-- The methods that the daemon tells apart. -/
inductive Method where
  | get
  | post
  | other
  deriving DecidableEq, Repr

/-- A request; there is no body where reading it fails, as for one that is no UTF-8. -/
structure Request where
  method : Method
  url : String
  body : Option String

/-- The path of a URL is what stands before its first question mark. -/
def Request.path (rq : Request) : String := String.ofList (rq.url.toList.takeWhile (· ≠ '?'))

structure HttpResponse where
  status : ℕ
  contentType : String
  body : JsonValue

def jsonResp (code : ℕ) (body : JsonValue) : HttpResponse := ⟨code, "application/json", body⟩

/-- A count, as a JSON number. -/
def jsonUsize (n : ℕ) : JsonValue := .number (.posInt (BitVec.ofNat 64 n))

def jsonError (e : String) : JsonValue := .object [("error", .string e)]

/-! ## Jobs -/

deriving instance DecidableEq for QueryArgs, QueryHit

/-- What a request asks for. -/
inductive Job where
  | health
  | stats
  | load (recs : List GrainRec)
  | query (args : QueryArgs)
  /-- The request is answered without the store. -/
  | refuse (code : ℕ) (e : String)
  deriving DecidableEq

/-- Dispatch a request and decode its body. -/
def Request.job (fromStr : String → Except String JsonValue) (rq : Request) : Job :=
  match rq.method, rq.path with
  | .get, "/health" => .health
  | .get, "/stats" => .stats
  | .post, "/grains" =>
    match rq.body with
    | none => .refuse 400 "bad body"
    | some body =>
      match parseGrains fromStr body with
      | .ok recs => .load recs
      | .error e => .refuse 400 e
  | .post, "/query" =>
    match rq.body with
    | none => .refuse 400 "bad body"
    | some body =>
      match fromStr body with
      | .error e => .refuse 400 e
      | .ok v =>
        match QueryArgs.ofValue v with
        | .ok args => .query args
        | .error e => .refuse 400 e
  | _, _ => .refuse 404 "not found"

/-! ## Answers -/

/-- How a job ends. -/
inductive Answer (D : Type*) where
  | health (indexed : ℕ)
  | stats (indexed dim : ℕ)
  | loaded (n indexed : ℕ)
  | rows (hits : List (QueryHit D))
  | failed (e : Error)
  | refused (code : ℕ) (e : String)
  deriving DecidableEq

variable {I V D : Type*}

/-- A row of an answer; the distance is a float, which JSON has no number for where it is not
finite. -/
def QueryHit.toJson (distance : D → JsonValue) (h : QueryHit D) : JsonValue :=
  .object
    [("sid", .number (.posInt h.sid)), ("category", .number (.posInt (h.category.setWidth 64))),
      ("amount", .number (.ofInt64 h.amount)), ("text", .string h.text),
      ("distance", distance h.distance)]

/-- How an answer is sent. -/
def Answer.response (distance : D → JsonValue) : Answer D → HttpResponse
  | .health indexed =>
    jsonResp 200 (.object [("status", .string "ok"), ("indexed", jsonUsize indexed)])
  | .stats indexed dim =>
    jsonResp 200 (.object [("indexed", jsonUsize indexed), ("dim", jsonUsize dim)])
  | .loaded n indexed =>
    jsonResp 200 (.object [("loaded", jsonUsize n), ("indexed", jsonUsize indexed)])
  | .rows hits =>
    jsonResp 200 (.object [("matches", .array (hits.map (QueryHit.toJson distance)))])
  | .failed e => jsonResp 500 (jsonError e.display)
  | .refused code e => jsonResp code (jsonError e)

/-- What the daemon is put together from. -/
structure Backend (I V D : Type*) where
  /-- The parser of one JSON text. -/
  fromStr : String → Except String JsonValue
  index : SplitIndex I V D
  /-- The vector of a text. -/
  embedBytes : Bytes → V
  dim : ℕ

namespace Backend

variable (b : Backend I V D)

/-- The embedder of stored values: what stands behind the category and the amount is embedded, if
there is anything. -/
def embed (value : Bytes) : Option V :=
  if value.length ≤ TEXT_OFFSET then none else some (b.embedBytes (value.drop TEXT_OFFSET))

/-- The vector of a query text. -/
def embedText (text : String) : V := b.embedBytes (utf8 text)

/-- Open a store on a log file. -/
def openOn (disk : Bytes) : Except Error (Store I × ℕ) :=
  Store.openOn b.index.writer b.embed disk b.index.fresh

/-- The workers apply the changes of the stream from the `n`-th on. -/
def materialize (n : ℕ) (s : Store I) : Store I :=
  let index := (s.engine.stream.drop n).foldl (b.index.writer.apply b.embed) s.engine.index
  { s with engine := { s.engine with index } }

/-- Load a batch.  A load waits for the index, so when it returns the workers have applied what it
has committed; what a load that fails has committed before, they apply as well. -/
def load (s : Store I) (batch : List (GrainRec × Option (IoError × ℕ))) :
    Store I × Except Error ℕ :=
  let loaded := s.load batch
  (b.materialize s.engine.stream.length loaded.1, loaded.2)

/-- The room that a query takes for its candidates, if there is so much. -/
def room (args : QueryArgs) : Option ℕ :=
  b.index.room (Store.mixedQuery b.embedText args.text args.k).fetch

variable [LE D] [DecidableLE D]

/-- Carry out a query; no result when it panics. -/
def query (s : Store I) (args : QueryArgs) : Option (Except Error (List (QueryHit D))) :=
  (b.room args).map fun _ =>
    s.query b.index.vectors b.embedText args.text args.category args.minAmount args.maxAmount args.k

/-- Carry out a job, with no other one under way.  `failure` is what the commit of each record of a
load meets.  There is no answer when the thread panics. -/
def run (s : Store I) (failure : ℕ → Option (IoError × ℕ)) : Job → Store I × Option (Answer D)
  | .health => (s, some (.health (b.index.len s.engine.index)))
  | .stats => (s, some (.stats (b.index.len s.engine.index) b.dim))
  | .load recs =>
    match b.load s (recs.mapIdx fun i r => (r, failure i)) with
    | (s, .ok n) => (s, some (.loaded n (b.index.len s.engine.index)))
    | (s, .error e) => (s, some (.failed e))
  | .query args =>
    match b.query s args with
    | some (.ok hits) => (s, some (.rows hits))
    | some (.error e) => (s, some (.failed e))
    | none => (s, none)
  | .refuse code e => (s, some (.refused code e))

/-- Handle one request. -/
def handle (distance : D → JsonValue) (s : Store I) (failure : ℕ → Option (IoError × ℕ))
    (rq : Request) : Store I × Option HttpResponse :=
  let done := b.run s failure (rq.job b.fromStr)
  (done.1, done.2.map (Answer.response distance))

/-- The loop of a handler thread that gets all the requests; it ends with a panic. -/
def serve (distance : D → JsonValue) (s : Store I) :
    List (Request × (ℕ → Option (IoError × ℕ))) → Store I × List HttpResponse
  | [] => (s, [])
  | (rq, failure) :: rest =>
    match b.handle distance s failure rq with
    | (s, none) => (s, [])
    | (s, some response) =>
      let (s, responses) := serve distance s rest
      (s, response :: responses)

end Backend

end GrainStore
