import Mathlib.Data.List.Chain
import DewDB.Endpoint
import DewDB.Precondition

/-!
# Forwarding a write

A router sends a write to the group's primary, to the primary it learned of meanwhile, and to each
replica, until one of them answers authoritatively. An answer that names another owner is followed
once. Whether a send was appended is known from its answer only when there is one.
-/
namespace DewDB.RouterForward

open Endpoint Precondition

section Shard

inductive Rejection where
  | unauthorized
  | forbidden
  | badPath
  | bodyTooLarge
  | unsupportedMedia
  | unprocessable

inductive Exit where
  | rejected (why : Rejection)
  | notLeader
  | badRequest
  | wrongOwner (owner : Url)
  | moving
  | backlog
  | tooWide
  | noCollection
  | preconditionFailed
  | noDocument
  | notLeading
  | appendFailed
  | syncFailed
  | deposed
  | commitNotSaved
  | met (created : Bool) (etag : Option Version)
  | unmet (etag : Option Version)

def Rejection.status : Rejection → Nat
  | .unauthorized => 401
  | .forbidden => 403
  | .badPath => 400
  | .bodyTooLarge => 413
  | .unsupportedMedia => 415
  | .unprocessable => 422

namespace Exit

def status : Exit → Nat
  | .rejected why => why.status
  | .notLeader => 403
  | .badRequest => 400
  | .wrongOwner _ => 409
  | .moving => 503
  | .backlog => 503
  | .tooWide => 413
  | .noCollection => 500
  | .preconditionFailed => 412
  | .noDocument => 404
  | .notLeading => 503
  | .appendFailed => 500
  | .syncFailed => 500
  | .deposed => 503
  | .commitNotSaved => 500
  | .met created _ => if created then 201 else 200
  | .unmet _ => 202

/-- The exits of `finish_write` come after the append. -/
def appended : Exit → Bool
  | .syncFailed | .deposed | .commitNotSaved | .met _ _ | .unmet _ => true
  | _ => false

def owner : Exit → Option Url
  | .wrongOwner owner => some owner
  | _ => none

def etag : Exit → Option Version
  | .met _ etag => etag
  | .unmet etag => etag
  | _ => none

end Exit

end Shard

/-- A shard's answer; `owner` is the member of that name in its body. -/
structure ShardReply where
  status : Nat
  owner : Option Url
  etag : Option Version

/-- What becomes of one send. The answer can be lost after the append, and a body that cannot be
read is taken as empty. -/
inductive Delivery where
  | unreachable
  | lost (appended : Bool)
  | answered (exit : Exit) (bodyRead : Bool)

namespace Delivery

def appended : Delivery → Bool
  | .unreachable => false
  | .lost appended => appended
  | .answered exit _ => exit.appended

def reply : Delivery → Option ShardReply
  | .answered exit bodyRead =>
    some ⟨exit.status, if bodyRead then exit.owner else none, exit.etag⟩
  | _ => none

end Delivery

/-- The owner a shard names when it tells that the sender's view is stale. -/
def ShardReply.redirect (reply : ShardReply) : Option Url :=
  if reply.status = 409 then reply.owner else none

def isSuccess (status : Nat) : Bool := 200 ≤ status && status < 300

def isRefusal (status : Nat) : Bool :=
  status == 400 || status == 404 || status == 409 || status == 413 || status == 422 || status == 412

def authoritativeWriteStatus (status : Nat) : Bool := isSuccess status || isRefusal status

structure Sent where
  url : Url
  delivery : Delivery

/-- The outcome of the next send, as any function of what was sent before. -/
abbrev Net := List Sent → Url → Delivery

def send (net : Net) (sent : List Sent) (url : Url) : Option ShardReply × List Sent :=
  ((net sent url).reply, sent ++ [⟨url, net sent url⟩])

/-- One attempt at `base`, following a `409` that names an owner once. The flag marks an outcome
reached through a redirect. -/
def attemptWrite (net : Net) (sent : List Sent) (base : Url) :
    Option (ShardReply × Bool) × List Sent :=
  match send net sent base with
  | (none, sent) => (none, sent)
  | (some reply, sent) =>
    match reply.redirect with
    | none => (if authoritativeWriteStatus reply.status then some (reply, false) else none, sent)
    | some owner =>
      match send net sent owner with
      | (none, sent) => (some (reply, true), sent)
      | (some second, sent) =>
        if authoritativeWriteStatus second.status && second.redirect.isNone then
          (some (second, true), sent)
        else (some (reply, true), sent)

/-- Where a key's writes go: the primary in force, the configured owner and its replicas. -/
structure Route where
  effective : Url
  original : Url
  replicas : List Url

inductive Override where
  | unchanged
  | set (url : Url)
  | removed

structure Forwarded where
  answer : ShardReply
  sent : List Sent
  override : Override

def tryReplicas (net : Net) : List Url → List Sent → Forwarded
  | [], sent => ⟨⟨502, none, none⟩, sent, .removed⟩
  | replica :: rest, sent =>
    match attemptWrite net sent replica with
    | (some (reply, redirected), sent) =>
      ⟨reply, sent, if redirected then .removed else .set replica⟩
    | (none, sent) => tryReplicas net rest sent

/-- The primary known now, if it is another than the one tried first. -/
def tryLatest (net : Net) (route : Route) (latest : Option Url) (sent : List Sent) :
    Option (ShardReply × Bool) × List Sent :=
  match latest with
  | some url => if url = route.effective then (none, sent) else attemptWrite net sent url
  | none => (none, sent)

def routerForwardWrite (net : Net) (route : Option Route) (latest : Option Url) : Forwarded :=
  match route with
  | none => ⟨⟨400, none, none⟩, [], .unchanged⟩
  | some route =>
    match attemptWrite net [] route.effective with
    | (some (reply, redirected), sent) =>
      ⟨reply, sent,
        if !redirected && route.effective != route.original then .set route.effective
        else .unchanged⟩
    | (none, sent) =>
      match tryLatest net route latest sent with
      | (some (reply, _), sent) => ⟨reply, sent, .unchanged⟩
      | (none, sent) => tryReplicas net route.replicas sent

def Sent.unanswered (s : Sent) : Bool :=
  s.delivery.reply.all fun reply => !authoritativeWriteStatus reply.status

def Sent.appended (s : Sent) : Bool := s.delivery.appended

def Sent.redirect (s : Sent) : Option Url := s.delivery.reply.bind ShardReply.redirect

def Forwarded.appends (f : Forwarded) : Nat := f.sent.countP Sent.appended

def Forwarded.unansweredAppends (f : Forwarded) : Nat :=
  f.sent.countP fun s => s.appended && s.unanswered

section Exits

theorem appended_of_isSuccess {e : Exit} (h : isSuccess e.status = true) : e.appended = true := by
  cases e with
  | rejected why => cases why <;> cases h
  | met created etag => rfl
  | unmet etag => rfl
  | _ => cases h

theorem not_appended_of_isRefusal {e : Exit} (h : isRefusal e.status = true) :
    e.appended = false := by
  cases e with
  | met created etag => cases created <;> cases h
  | unmet etag => cases h
  | syncFailed => cases h
  | deposed => cases h
  | commitNotSaved => cases h
  | _ => rfl

theorem sent_appended_of_isSuccess {s : Sent} {reply : ShardReply}
    (hr : s.delivery.reply = some reply) (h : isSuccess reply.status = true) :
    s.appended = true := by
  obtain ⟨url, delivery⟩ := s
  cases delivery with
  | unreachable => cases hr
  | lost appended => cases hr
  | answered exit bodyRead =>
    cases hr
    exact appended_of_isSuccess h

theorem sent_not_appended_of_isRefusal {s : Sent} {reply : ShardReply}
    (hr : s.delivery.reply = some reply) (h : isRefusal reply.status = true) :
    s.appended = false := by
  obtain ⟨url, delivery⟩ := s
  cases delivery with
  | unreachable => cases hr
  | lost appended => cases hr
  | answered exit bodyRead =>
    cases hr
    exact not_appended_of_isRefusal h

theorem status_of_redirect {reply : ShardReply} {owner : Url} (h : reply.redirect = some owner) :
    reply.status = 409 := by
  unfold ShardReply.redirect at h
  split at h
  · assumption
  · cases h

end Exits

/-- A send follows an unanswered one, or goes to the owner the one before it was told. -/
def Resent (s t : Sent) : Prop := s.unanswered = true ∨ s.redirect = some t.url

/-- How a forward ends: with the answer of its last send, or with a refusal that no send of an
answered append stands behind. -/
structure Settled (f : Forwarded) : Prop where
  chain : f.sent.IsChain Resent
  outcome :
    (∃ l s, f.sent = l ++ [s] ∧ (∀ t ∈ l, t.appended = true → t.unanswered = true) ∧
      s.delivery.reply = some f.answer ∧ authoritativeWriteStatus f.answer.status = true) ∨
    (isSuccess f.answer.status = false ∧
      ∀ t ∈ f.sent, t.appended = true → t.unanswered = true)

section Attempts

variable {net : Net} {sent sent' : List Sent} {base : Url}

theorem attemptWrite_none (h : attemptWrite net sent base = (none, sent')) :
    ∃ s, sent' = sent ++ [s] ∧ s.unanswered = true := by
  simp only [attemptWrite, send] at h
  refine ⟨⟨base, net sent base⟩, ?_⟩
  cases hreply : (net sent base).reply with
  | none =>
    simp only [hreply, Prod.mk.injEq, true_and] at h
    exact ⟨h.symm, by simp [Sent.unanswered, hreply]⟩
  | some reply =>
    simp only [hreply] at h
    cases hred : reply.redirect with
    | none =>
      simp only [hred, Prod.mk.injEq, ite_eq_right_iff, reduceCtorEq, imp_false] at h
      exact ⟨h.2.symm, by simp [Sent.unanswered, hreply, h.1]⟩
    | some owner =>
      simp only [hred] at h
      split at h
      · cases h
      · split at h <;> cases h

/-- An attempt with an outcome took it from its only send, or followed the owner it was told: then
nothing was appended at the first stop, and the outcome is the owner's answer or the refusal that
named it. -/
theorem attemptWrite_some {reply : ShardReply} {redirected : Bool}
    (h : attemptWrite net sent base = (some (reply, redirected), sent')) :
    (∃ s, sent' = sent ++ [s] ∧ s.delivery.reply = some reply ∧
      authoritativeWriteStatus reply.status = true) ∨
    ∃ s t, sent' = sent ++ [s, t] ∧ s.appended = false ∧ s.redirect = some t.url ∧
      ((t.delivery.reply = some reply ∧ authoritativeWriteStatus reply.status = true) ∨
        (reply.status = 409 ∧ (t.appended = true → t.unanswered = true))) := by
  simp only [attemptWrite, send] at h
  cases hreply : (net sent base).reply with
  | none =>
    simp only [hreply] at h
    cases h
  | some first =>
    simp only [hreply] at h
    cases hred : first.redirect with
    | none =>
      simp only [hred, Prod.mk.injEq] at h
      obtain ⟨hout, rfl⟩ := h
      split at hout
      · rename_i hauth
        cases hout
        exact .inl ⟨_, rfl, hreply, hauth⟩
      · cases hout
    | some owner =>
      have h409 := status_of_redirect hred
      have hnot : (Sent.mk base (net sent base)).appended = false :=
        sent_not_appended_of_isRefusal hreply (by rw [h409]; rfl)
      have hnamed : (Sent.mk base (net sent base)).redirect = some owner := by
        simp [Sent.redirect, hreply, hred]
      right
      simp only [hred] at h
      cases hsecond : (net (sent ++ [⟨base, net sent base⟩]) owner).reply with
      | none =>
        simp only [hsecond] at h
        cases h
        exact ⟨_, ⟨owner, _⟩, List.append_assoc _ _ _, hnot, hnamed,
          .inr ⟨h409, fun _ => by simp [Sent.unanswered, hsecond]⟩⟩
      | some second =>
        simp only [hsecond] at h
        split at h
        · rename_i hauth
          cases h
          simp only [Bool.and_eq_true] at hauth
          exact ⟨_, ⟨owner, _⟩, List.append_assoc _ _ _, hnot, hnamed, .inl ⟨hsecond, hauth.1⟩⟩
        · rename_i hauth
          cases h
          refine ⟨_, ⟨owner, _⟩, List.append_assoc _ _ _, hnot, hnamed, .inr ⟨h409, fun happ => ?_⟩⟩
          -- an authoritative second answer was itself a redirect, and those append nothing
          by_contra hun
          have hstatus : authoritativeWriteStatus second.status = true := by
            simpa [Sent.unanswered, hsecond] using hun
          obtain ⟨o, ho⟩ : ∃ o, second.redirect = some o := by
            cases hr : second.redirect with
            | none => simp [hstatus, hr] at hauth
            | some o => exact ⟨o, rfl⟩
          have := sent_not_appended_of_isRefusal (s := ⟨owner, _⟩) hsecond
            (by rw [status_of_redirect ho]; rfl)
          rw [this] at happ
          cases happ

theorem isChain_of_unanswered {l : List Sent} (h : ∀ t ∈ l, t.unanswered = true) :
    l.IsChain Resent := by
  induction l with
  | nil => exact .nil
  | cons s l ih =>
    cases l with
    | nil => exact .singleton s
    | cons t l =>
      exact .cons_cons (.inl (h s (by simp))) (ih fun u hu => h u (List.mem_cons_of_mem _ hu))

theorem settled_of_attempt {reply : ShardReply} {redirected : Bool} (o : Override)
    (hsent : ∀ t ∈ sent, t.unanswered = true)
    (h : attemptWrite net sent base = (some (reply, redirected), sent')) :
    Settled ⟨reply, sent', o⟩ := by
  have hchain := isChain_of_unanswered hsent
  have hjoin : ∀ l : List Sent, l.IsChain Resent → (sent ++ l).IsChain Resent := fun l hl =>
    hchain.append hl fun s hs _ _ => .inl (hsent s (List.mem_of_getLast? hs))
  rcases attemptWrite_some h with ⟨s, rfl, hreply, hauth⟩ | ⟨s, t, rfl, hnot, hurl, hout⟩
  · exact ⟨hjoin [s] (.singleton s), .inl ⟨sent, s, rfl, fun t ht _ => hsent t ht, hreply, hauth⟩⟩
  · refine ⟨hjoin [s, t] (.cons_cons (.inr hurl) (.singleton t)), ?_⟩
    have hbefore : ∀ u ∈ sent ++ [s], u.appended = true → u.unanswered = true := by
      intro u hu happ
      rcases List.mem_append.mp hu with hu | hu
      · exact hsent u hu
      · rw [List.mem_singleton.mp hu, hnot] at happ
        cases happ
    rcases hout with ⟨hreply, hauth⟩ | ⟨h409, hlast⟩
    · exact .inl ⟨sent ++ [s], t, by simp, hbefore, hreply, hauth⟩
    · refine .inr ⟨by simp [h409, isSuccess], fun u hu => ?_⟩
      have hu' : u ∈ sent ++ [s] ∨ u = t := by simpa [or_assoc] using hu
      rcases hu' with hu | rfl
      · exact hbefore u hu
      · exact hlast

theorem unanswered_concat (hsent : ∀ t ∈ sent, t.unanswered = true)
    (h : attemptWrite net sent base = (none, sent')) : ∀ t ∈ sent', t.unanswered = true := by
  obtain ⟨s, rfl, hs⟩ := attemptWrite_none h
  intro t ht
  rcases List.mem_append.mp ht with ht | ht
  · exact hsent t ht
  · rw [List.mem_singleton.mp ht]
    exact hs

theorem settled_tryReplicas {replicas : List Url} (hsent : ∀ t ∈ sent, t.unanswered = true) :
    Settled (tryReplicas net replicas sent) := by
  induction replicas generalizing sent with
  | nil => exact ⟨isChain_of_unanswered hsent, .inr ⟨rfl, fun t ht _ => hsent t ht⟩⟩
  | cons replica rest ih =>
    rw [tryReplicas]
    split
    · rename_i reply redirected sent' h
      exact settled_of_attempt _ hsent h
    · rename_i sent' h
      exact ih (unanswered_concat hsent h)

end Attempts

theorem settled_routerForwardWrite (net : Net) (route : Option Route) (latest : Option Url) :
    Settled (routerForwardWrite net route latest) := by
  cases route with
  | none => exact ⟨.nil, .inr ⟨rfl, by simp [routerForwardWrite]⟩⟩
  | some route =>
    simp only [routerForwardWrite]
    split
    · rename_i reply redirected sent h
      exact settled_of_attempt _ (by simp) h
    · rename_i sent h
      have hsent := unanswered_concat (by simp) h
      split
      · rename_i reply redirected sent' hlatest
        unfold tryLatest at hlatest
        split at hlatest
        · split at hlatest
          · cases hlatest
          · exact settled_of_attempt _ hsent hlatest
        · cases hlatest
      · rename_i sent' hlatest
        refine settled_tryReplicas ?_
        unfold tryLatest at hlatest
        split at hlatest
        · split at hlatest
          · cases hlatest
            exact hsent
          · exact unanswered_concat hsent hlatest
        · cases hlatest
          exact hsent

theorem countP_appended_le {l : List Sent} (hl : ∀ t ∈ l, t.appended = true → t.unanswered = true) :
    l.countP Sent.appended ≤ l.countP fun s => s.appended && s.unanswered := by
  refine List.countP_mono_left fun t ht happ => ?_
  simp [happ, hl t ht happ]

theorem Settled.appends_le {f : Forwarded} (h : Settled f) :
    f.appends ≤ f.unansweredAppends + 1 := by
  rcases h.outcome with ⟨l, s, hsent, hl, -, -⟩ | ⟨-, hl⟩
  · have hle := countP_appended_le hl
    have hone : [s].countP Sent.appended ≤ 1 := List.countP_le_length
    simp only [Forwarded.appends, Forwarded.unansweredAppends, hsent, List.countP_append]
    omega
  · exact (countP_appended_le hl).trans (Nat.le_succ _)

theorem Settled.appends_le_of_refusal {f : Forwarded} (h : Settled f)
    (hrefused : isRefusal f.answer.status = true) : f.appends ≤ f.unansweredAppends := by
  rcases h.outcome with ⟨l, s, hsent, hl, hreply, -⟩ | ⟨-, hl⟩
  · have hle := countP_appended_le hl
    have hs := sent_not_appended_of_isRefusal hreply hrefused
    have hzero : [s].countP Sent.appended = 0 := by simp [hs]
    simp only [Forwarded.appends, Forwarded.unansweredAppends, hsent, List.countP_append]
    omega
  · exact countP_appended_le hl

theorem Settled.last_of_success {f : Forwarded} (h : Settled f)
    (hok : isSuccess f.answer.status = true) :
    ∃ l s, f.sent = l ++ [s] ∧ s.appended = true ∧ s.delivery.reply = some f.answer := by
  rcases h.outcome with ⟨l, s, hsent, -, hreply, -⟩ | ⟨hno, -⟩
  · exact ⟨l, s, hsent, sent_appended_of_isSuccess hreply hok, hreply⟩
  · rw [hok] at hno
    cases hno

/-- A routed write is sent again only when a send brought no authoritative answer, or once to the
owner an answer named. It is appended at most once for every append whose answer was lost and once
more, a refusal stands behind no answered append, and a success is the answer of the last send. -/
theorem routed_write_settles (net : Net) (route : Option Route) (latest : Option Url) :
    let f := routerForwardWrite net route latest
    f.sent.IsChain Resent ∧
    f.appends ≤ f.unansweredAppends + 1 ∧
    (isRefusal f.answer.status = true → f.appends ≤ f.unansweredAppends) ∧
    (isSuccess f.answer.status = true →
      ∃ l s, f.sent = l ++ [s] ∧ s.appended = true ∧ s.delivery.reply = some f.answer) := by
  have h := settled_routerForwardWrite net route latest
  exact ⟨h.chain, h.appends_le, h.appends_le_of_refusal, h.last_of_success⟩

/-- A primary that appends and loses its term before it answers, then whatever `next` is. -/
def deposedThen (next : Exit) : Net := fun sent _ =>
  if sent.isEmpty then .answered .deposed true else .answered next true

/-- A primary that names another owner, whose answer to the append is lost. -/
def redirectedThenLost : Net := fun sent _ =>
  if sent.isEmpty then .answered (.wrongOwner ['b']) true else .lost true

def twoNodes : Option Route := some ⟨['p'], ['p'], [['r']]⟩

/-- One request appended twice; one refused for its own append; one answered with the stale owner's
refusal although the owner appended it. -/
theorem routed_write_repeats :
    (routerForwardWrite (deposedThen (.met false none)) twoNodes none).appends = 2 ∧
    ((routerForwardWrite (deposedThen .preconditionFailed) twoNodes none).answer.status = 412 ∧
      (routerForwardWrite (deposedThen .preconditionFailed) twoNodes none).appends = 1) ∧
    ((routerForwardWrite redirectedThenLost twoNodes none).answer.status = 409 ∧
      (routerForwardWrite redirectedThenLost twoNodes none).appends = 1) := by
  decide

end DewDB.RouterForward
