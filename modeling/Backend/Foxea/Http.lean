import Backend.Foxea.Session
import Backend.Lib.Run
import Mathlib.Logic.Function.Basic

/-!
# `HttpServer` and `Server` (`service_foxea/src/net/http_server.cc`, `src/server/server.cc`)

The event thread calls `httpd_handler` for each request: it takes a session, pushes it and waits for
its semaphore. The distribute thread pops sessions, runs `ParseAndDistribute` and returns the session
to the pool.

* `strcmp`, `Reply`: what `ParseAndDistribute` compares and sends;
* `Handler`, `Dist`, `Act`, `State`, `next`: the event thread, the distribute thread, one step; what
  `evhttp_request_get_uri`, `evhttp_uri_parse` and `evhttp_uri_get_path` return is part of the label;
* `Step`, **`step_of_next`**: what one step can do.

`m_p_work_sem` of a session of the pool points to its own semaphore. The list `replies` is a monitor.
-/

set_option autoImplicit false

namespace Backend.Foxea.Http

open Function

/-- `strcmp` on the characters before the terminator. -/
def strcmp : List Char → List Char → ℤ
  | [], [] => 0
  | [], b :: _ => -b.toNat
  | a :: _, [] => a.toNat
  | a :: l, b :: m => if a = b then strcmp l m else a.toNat - b.toNat

/-- A call of `evhttp_send_error` or of `evhttp_send_reply` with its headers. -/
inductive Reply
  | error (code : ℕ) (reason : Option String)
  | reply (code : ℕ) (reason : String) (headers : List (String × String)) (body : List Char)

/-- The reply in the else branch of `ParseAndDistribute`. -/
def unknownPath (uri : List Char) : Reply :=
  .reply 200 "ok" [("Server", "FOXEA VERSION 1.0"), ("Content-Type", "text/html; charset=UTF-8")]
    ("unknow request_path, requst uri:".toList ++ uri ++ ['\n'])

/-- Where the event thread is. -/
inductive Handler
  /-- outside `httpd_handler` -/
  | idle
  /-- in `GetSession` -/
  | get (r : ℕ)
  /-- before `request_session->m_req = req` -/
  | fill (r i : ℕ)
  /-- in `WaitTillPush` -/
  | push (i : ℕ)
  /-- in `ReleaseSession` after a push that failed -/
  | failed (i : ℕ)
  /-- in `WaitRequestSession` -/
  | wait (i : ℕ)
  /-- `assert(0)` after a `GetSession` that failed -/
  | aborted

/-- Where the distribute thread is; `i` is the session, `r` the local variable `req`. -/
inductive Dist
  /-- before `server->m_continue` -/
  | test
  /-- has read `m_continue` as `false`, before `GetNodeNum() > 0` -/
  | count
  /-- in `WaitTimePop` -/
  | pop
  /-- before `evhttp_request_get_uri` -/
  | uri (i : ℕ) (r : Option ℕ)
  /-- before `evhttp_send_error(req, 404, "Document not found")`, with no URI -/
  | noUri (i : ℕ) (r : Option ℕ)
  /-- before `evhttp_uri_parse` -/
  | parse (i : ℕ) (r : Option ℕ) (uri : List Char)
  /-- before `evhttp_send_error(req, HTTP_BADREQUEST, 0)` -/
  | badRequest (i : ℕ) (r : Option ℕ)
  /-- before the `evhttp_send_error` that follows it -/
  | notFound (i : ℕ) (r : Option ℕ)
  /-- before `evhttp_uri_get_path` -/
  | path (i : ℕ) (r : Option ℕ) (uri : List Char)
  /-- before `0 == strcmp(request_path, request_path)` -/
  | branch (i : ℕ) (r : Option ℕ) (uri path : List Char)
  /-- before `evhttp_send_reply` -/
  | reply (i : ℕ) (r : Option ℕ) (uri : List Char)
  /-- before `NotifyRequestSession`; `decoded` when `evhttp_uri_free` is still to come -/
  | notify (i : ℕ) (decoded : Bool)
  /-- before `evhttp_uri_free` -/
  | free (i : ℕ)
  /-- in `ReleaseSession` -/
  | release (i : ℕ)
  /-- `distribute` has returned -/
  | returned

/-- The session of the `ParseAndDistribute` that is running. -/
def Dist.inside : Dist → Option ℕ
  | .uri i _ | .noUri i _ | .parse i _ _ | .badRequest i _ | .notFound i _ | .path i _ _
  | .branch i _ _ _ | .reply i _ _ | .notify i _ | .free i => some i
  | _ => none

/-- Pool, queue, sessions and threads. Requests are numbered in the order in which `httpd_handler`
is called for them; `calls` is the number of calls. -/
structure State where
  pool : Fifo ℕ
  queue : Fifo ℕ
  req : ℕ → Option ℕ
  sem : ℕ → ℕ
  cont : Bool
  handler : Handler
  dist : Dist
  calls : ℕ
  replies : List (Option ℕ × Reply)

/-- `Server::Init` and `Start`. -/
def State.init (size : ℕ) : Option State := do
  let q ← RequestQueue.init size
  let p ← SessionPool.init size
  return { pool := p, queue := q, req := fun _ => none, sem := fun _ => 0, cont := true,
           handler := .idle, dist := .test, calls := 0, replies := [] }

/-- The steps. -/
inductive Act
  /-- the event thread calls `httpd_handler` for a new request -/
  | request
  /-- the event thread goes on -/
  | handler
  /-- `GetSession` or `WaitTillPush` of the event thread returns `false` -/
  | fail
  /-- the distribute thread goes on -/
  | dist
  /-- `WaitTimePop` times out -/
  | timeout
  /-- `evhttp_request_get_uri` returns -/
  | uri (o : Option (List Char))
  /-- `evhttp_uri_parse` returns, and whether it returns an object -/
  | parse (ok : Bool)
  /-- `evhttp_uri_get_path` returns -/
  | path (o : Option (List Char))
  /-- `m_continue = false` -/
  | stop

/-- Issue a reply and go on at `d`. -/
def State.send (s : State) (r : Option ℕ) (x : Reply) (d : Dist) : State :=
  { s with replies := s.replies ++ [(r, x)], dist := d }

/-- The event thread goes on. -/
def State.goHandler (s : State) : Option State :=
  match s.handler with
  | .idle | .aborted => none
  | .get r => s.pool.pop.map fun (i, p) => { s with pool := p, handler := .fill r i }
  | .fill r i => some { s with req := update s.req i (some r), handler := .push i }
  | .push i => (s.queue.push i).map fun q => { s with queue := q, handler := .wait i }
  | .failed i => (s.pool.push i).map fun p => { s with pool := p, handler := .idle }
  | .wait i => if 0 < s.sem i then
      some { s with sem := update s.sem i (s.sem i - 1), handler := .idle } else none

/-- The distribute thread goes on. -/
def State.goDist (s : State) : Option State :=
  match s.dist with
  | .test => if s.cont then some { s with dist := .pop } else some { s with dist := .count }
  | .count => if s.queue.items.length > 0 then some { s with dist := .pop }
      else some { s with dist := .returned }
  | .pop => s.queue.pop.map fun (i, q) => { s with queue := q, dist := .uri i (s.req i) }
  | .noUri i r => some (s.send r (.error 404 (some "Document not found")) (.notify i false))
  | .badRequest i r => some (s.send r (.error 400 none) (.notFound i r))
  | .notFound i r => some (s.send r (.error 404 (some "Document not found")) (.notify i false))
  | .branch i r u p => if 0 = strcmp p p then some { s with dist := .free i }
      else some { s with dist := .reply i r u }
  | .reply i r u => some (s.send r (unknownPath u) (.notify i true))
  | .notify i decoded =>
    some { s with sem := update s.sem i (s.sem i + 1),
                  dist := if decoded then .free i else .release i }
  | .free i => some { s with dist := .release i }
  | .release i => (s.pool.push i).map fun p => { s with pool := p, dist := .test }
  | .uri _ _ | .parse _ _ _ | .path _ _ _ | .returned => none

/-- One step. -/
def next (s : State) : Act → Option State
  | .request => match s.handler with
    | .idle => some { s with handler := .get s.calls, calls := s.calls + 1 }
    | _ => none
  | .handler => s.goHandler
  | .fail => match s.handler with
    | .get _ => some { s with handler := .aborted }
    | .push i => some { s with handler := .failed i }
    | _ => none
  | .dist => s.goDist
  | .timeout => match s.dist with
    | .pop => some { s with dist := .test }
    | _ => none
  | .uri o => match s.dist, o with
    | .uri i r, none => some { s with dist := .noUri i r }
    | .uri i r, some u => some { s with dist := .parse i r u }
    | _, _ => none
  | .parse ok => match s.dist with
    | .parse i r u => if ok then some { s with dist := .path i r u }
        else some { s with dist := .badRequest i r }
    | _ => none
  | .path o => match s.dist with
    | .path i r u => some { s with dist := .branch i r u (o.getD ['/']) }
    | _ => none
  | .stop => some { s with cont := false }

/-- What one step can do. -/
inductive Step (s : State) : Act → State → Prop
  | request : s.handler = .idle →
      Step s .request { s with handler := .get s.calls, calls := s.calls + 1 }
  | get (r i : ℕ) (p : Fifo ℕ) : s.handler = .get r → s.pool.pop = some (i, p) →
      Step s .handler { s with pool := p, handler := .fill r i }
  | fill (r i : ℕ) : s.handler = .fill r i →
      Step s .handler { s with req := update s.req i (some r), handler := .push i }
  | push (i : ℕ) (q : Fifo ℕ) : s.handler = .push i → s.queue.push i = some q →
      Step s .handler { s with queue := q, handler := .wait i }
  | failed (i : ℕ) (p : Fifo ℕ) : s.handler = .failed i → s.pool.push i = some p →
      Step s .handler { s with pool := p, handler := .idle }
  | wait (i : ℕ) : s.handler = .wait i → 0 < s.sem i →
      Step s .handler { s with sem := update s.sem i (s.sem i - 1), handler := .idle }
  | abort (r : ℕ) : s.handler = .get r → Step s .fail { s with handler := .aborted }
  | fail (i : ℕ) : s.handler = .push i → Step s .fail { s with handler := .failed i }
  | loop : s.dist = .test ∨ s.dist = .count → Step s .dist { s with dist := .pop }
  | count : s.dist = .test → Step s .dist { s with dist := .count }
  | leave : s.dist = .count → Step s .dist { s with dist := .returned }
  | pop (i : ℕ) (q : Fifo ℕ) : s.dist = .pop → s.queue.pop = some (i, q) →
      Step s .dist { s with queue := q, dist := .uri i (s.req i) }
  | timeout : s.dist = .pop → Step s .timeout { s with dist := .test }
  | noUri (i : ℕ) (r : Option ℕ) : s.dist = .uri i r → Step s (.uri none) { s with dist := .noUri i r }
  | uri (i : ℕ) (r : Option ℕ) (u : List Char) : s.dist = .uri i r →
      Step s (.uri (some u)) { s with dist := .parse i r u }
  | sendNoUri (i : ℕ) (r : Option ℕ) : s.dist = .noUri i r →
      Step s .dist (s.send r (.error 404 (some "Document not found")) (.notify i false))
  | parse (i : ℕ) (r : Option ℕ) (u : List Char) : s.dist = .parse i r u →
      Step s (.parse true) { s with dist := .path i r u }
  | badParse (i : ℕ) (r : Option ℕ) (u : List Char) : s.dist = .parse i r u →
      Step s (.parse false) { s with dist := .badRequest i r }
  | badRequest (i : ℕ) (r : Option ℕ) : s.dist = .badRequest i r →
      Step s .dist (s.send r (.error 400 none) (.notFound i r))
  | notFound (i : ℕ) (r : Option ℕ) : s.dist = .notFound i r →
      Step s .dist (s.send r (.error 404 (some "Document not found")) (.notify i false))
  | path (i : ℕ) (r : Option ℕ) (u : List Char) (o : Option (List Char)) : s.dist = .path i r u →
      Step s (.path o) { s with dist := .branch i r u (o.getD ['/']) }
  | branch (i : ℕ) (r : Option ℕ) (u p : List Char) : s.dist = .branch i r u p →
      Step s .dist { s with dist := .free i }
  | notify (i : ℕ) (decoded : Bool) : s.dist = .notify i decoded →
      Step s .dist { s with sem := update s.sem i (s.sem i + 1),
                            dist := if decoded then .free i else .release i }
  | reply (i : ℕ) (r : Option ℕ) (u : List Char) : s.dist = .reply i r u →
      Step s .dist (s.send r (unknownPath u) (.notify i true))
  | free (i : ℕ) : s.dist = .free i → Step s .dist { s with dist := .release i }
  | release (i : ℕ) (p : Fifo ℕ) : s.dist = .release i → s.pool.push i = some p →
      Step s .dist { s with pool := p, dist := .test }
  | stop : Step s .stop { s with cont := false }

/-- The comparison of a path with itself always takes the first branch. -/
theorem strcmp_self (p : List Char) : strcmp p p = 0 := by
  induction p with
  | nil => rfl
  | cons a l ih => rw [strcmp, if_pos rfl, ih]

theorem step_of_goHandler {s s' : State} (h : s.goHandler = some s') : Step s .handler s' := by
  unfold State.goHandler at h
  split at h
  case h_1 => cases h
  case h_2 => cases h
  case h_3 r hp =>
    obtain ⟨⟨i, p⟩, hi, rfl⟩ := Option.map_eq_some_iff.mp h
    exact .get r i p hp hi
  case h_4 r i hp => cases h; exact .fill r i hp
  case h_5 i hp =>
    obtain ⟨q, hq, rfl⟩ := Option.map_eq_some_iff.mp h
    exact .push i q hp hq
  case h_6 i hp =>
    obtain ⟨p, hq, rfl⟩ := Option.map_eq_some_iff.mp h
    exact .failed i p hp hq
  case h_7 i hp => split at h <;> cases h; exact .wait i hp ‹_›

theorem step_of_goDist {s s' : State} (h : s.goDist = some s') : Step s .dist s' := by
  unfold State.goDist at h
  split at h
  case h_1 hp =>
    split at h <;> cases h
    · exact .loop (Or.inl hp)
    · exact .count hp
  case h_2 hp =>
    split at h <;> cases h
    · exact .loop (Or.inr hp)
    · exact .leave hp
  case h_3 hp =>
    obtain ⟨⟨i, q⟩, hq, rfl⟩ := Option.map_eq_some_iff.mp h
    exact .pop i q hp hq
  case h_4 i r hp => cases h; exact .sendNoUri i r hp
  case h_5 i r hp => cases h; exact .badRequest i r hp
  case h_6 i r hp => cases h; exact .notFound i r hp
  case h_7 i r u p hp => rw [if_pos (strcmp_self p).symm] at h; cases h; exact .branch i r u p hp
  case h_8 i r u hp => cases h; exact .reply i r u hp
  case h_9 i d hp => cases h; exact .notify i d hp
  case h_10 i hp => cases h; exact .free i hp
  case h_11 i hp =>
    obtain ⟨p, hq, rfl⟩ := Option.map_eq_some_iff.mp h
    exact .release i p hp hq
  all_goals cases h

/-- **What one step can do.** -/
theorem step_of_next {s s' : State} {a : Act} (h : next s a = some s') : Step s a s' := by
  cases a with
  | request =>
    simp only [next] at h
    split at h <;> cases h
    exact .request ‹_›
  | handler => exact step_of_goHandler h
  | fail =>
    simp only [next] at h
    split at h <;> cases h
    · exact .abort _ ‹_›
    · exact .fail _ ‹_›
  | dist => exact step_of_goDist h
  | timeout =>
    simp only [next] at h
    split at h <;> cases h
    exact .timeout ‹_›
  | uri o =>
    simp only [next] at h
    split at h <;> cases h
    · exact .noUri _ _ ‹_›
    · exact .uri _ _ _ ‹_›
  | parse ok =>
    simp only [next] at h
    split at h
    · cases ok <;> cases h
      · exact .badParse _ _ _ ‹_›
      · exact .parse _ _ _ ‹_›
    · cases h
  | path o =>
    simp only [next] at h
    split at h <;> cases h
    exact .path _ _ _ _ ‹_›
  | stop => cases h; exact .stop

end Backend.Foxea.Http
