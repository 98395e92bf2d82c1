import DewDB.ElectionSafety

/-!
# Leader leases

The lease arithmetic and the lease part of the replication state, over the elections of `Election`.
Instants are nanoseconds of clocks that run at one rate. A node compares an instant only with
instants of its own clock, so one time line serves all of them.
-/
namespace DewDB.Lease

open Endpoint QuorumConfig ReplicationMeta Vote Election


def fromMillis (n : ℕ) : ℕ := n * 1000000

def asMillis (d : ℕ) : ℕ := d / 1000000

theorem fromMillis_asMillis_le (d : ℕ) : fromMillis (asMillis d) ≤ d :=
  Nat.div_mul_le_self d 1000000

def heartbeatPollInterval : ℕ := fromMillis 500

def stallTolerance : ℕ := fromMillis 250

def refusalWindow (heartbeatTimeout : ℕ) : ℕ :=
  (heartbeatTimeout - heartbeatPollInterval) / 2

def newest : Option ℕ → Option ℕ → Option ℕ
  | some a, some b => some (max a b)
  | some a, none => some a
  | none, b => b

def contactAge (lastHeartbeat lastReplication : Option ℕ) (now : ℕ) : Option ℕ :=
  (newest lastHeartbeat lastReplication).map (now - ·)

def withholdsVote (contact : Option ℕ) (grantedUntil : Option ℕ)
    (sinceBoot heartbeatTimeout : ℕ) (now : ℕ) : Bool :=
  let window := refusalWindow heartbeatTimeout
  decide (sinceBoot < window) || contact.any (fun age => decide (age < window)) ||
    grantedUntil.any fun last => decide (now < last)

def grantable (contact : Option ℕ) (heartbeatTimeout : ℕ) : ℕ :=
  match contact with
  | some age => refusalWindow heartbeatTimeout - age
  | none => 0

theorem grantable_le (contact : Option ℕ) (heartbeatTimeout : ℕ) :
    grantable contact heartbeatTimeout ≤ refusalWindow heartbeatTimeout := by
  cases contact with
  | none => exact Nat.zero_le _
  | some age => exact Nat.sub_le _ _

def acceptPromise (claimed heartbeatTimeout : ℕ) : ℕ :=
  min claimed (refusalWindow heartbeatTimeout)

/-- A promise as the leader holds it, with the clock pair of its newest round. -/
structure Promise where
  last : ℕ
  noted : ℕ
  notedWall : ℕ

def Promise.live (p : Promise) (now wallNow : ℕ) : Bool :=
  decide (now < p.last) && decide (wallNow - p.notedWall ≤ now - p.noted + stallTolerance)

abbrev Leases := List (Url × Promise)

/-- The deadline extends only; the clock pair is the newest round's. -/
def notePromise (leases : Leases) (voter : Url) (now wallNow : ℕ) (promise : ℕ) :
    Leases :=
  let last :=
    match leases.lookup voter with
    | some held => max held.last (now + promise)
    | none => now + promise
  (voter, ⟨last, now, wallNow⟩) :: leases.filter fun held => held.1 != voter

def promised (leases : Leases) (ownUrl : Url) (now wallNow : ℕ) : List Url :=
  ownUrl :: (leases.filter fun held => held.2.live now wallNow && !sameEndpoint held.1 ownUrl).map
    Prod.fst

def held (leases : Leases) (config : Configuration) (ownUrl : Url) (now wallNow : ℕ) : Bool :=
  config.hasQuorum (promised leases ownUrl now wallNow)

/-- A promise in the updated map was there before, or runs to the old deadline or to the new one. -/
theorem mem_notePromise {leases : Leases} {voter url : Url} {now wallNow : ℕ}
    {promise : ℕ} {p : Promise} (h : (url, p) ∈ notePromise leases voter now wallNow promise) :
    (url, p) ∈ leases ∨ (url = voter ∧
      (p.last = now + promise ∨ ∃ q, (voter, q) ∈ leases ∧ p.last = q.last)) := by
  unfold notePromise at h
  rcases List.mem_cons.mp h with heq | hold
  · right
    obtain ⟨hurl, hp⟩ := Prod.mk.inj heq
    refine ⟨hurl, ?_⟩
    cases hl : leases.lookup voter with
    | none => exact .inl (by simp [hp, hl])
    | some q =>
      obtain ⟨before, after, hsplit, -⟩ := List.lookup_eq_some_iff.mp hl
      have hmem : (voter, q) ∈ leases := by simp [hsplit]
      rcases Nat.le_total q.last (now + promise) with hle | hle
      · exact .inl (by simp [hp, hl, hle])
      · exact .inr ⟨q, hmem, by simp [hp, hl, hle]⟩
  · exact .inl (List.mem_of_mem_filter hold)

end DewDB.Lease
