import Mathlib.Data.Fin.VecNotation
import DewDB.ReconfigureInv

/-!
# Joint consensus

Nodes that have put every committed configuration entry in force decide by configurations whose
quorums meet, whatever entries are still open and whoever leads. A node that lags may still count a
set that the group has left behind, and an append that lands after its leader was deposed parts even
the others.
-/
namespace DewDB.Reconfigure

open Endpoint Majority QuorumConfig MajorityOverlap TransitionSystem

variable {ι : Type} {g : ShardGroup ι} {w : World ι} {i : ι} {n n' : ConfigNode}

/-- What a change at its stage may count on while its leadership lasts. -/
def StageOk (g : ShardGroup ι) (n : ConfigNode) : Stage → Prop
  | .joining joint target => n.committed = n.log.length ∧ Follows (configOf g n.log) joint ∧
      Follows joint target
  | .awaiting _ target len => n.log.length = len ∧ Follows (configOf g n.log) target
  | .leaving target => n.committed = n.log.length ∧ Follows (configOf g n.log) target
  | .settled => True

structure NodeOk (g : ShardGroup ι) (w : World ι) (n : ConfigNode) : Prop where
  log : Chained g w n.log
  installed : Chained g w n.installed
  known : n.committed ≤ n.log.length ∧ IsCommitted w (n.log.take n.committed)
  change : ∀ ch, n.change = some ch → ch.term ≤ n.term ∧
    (n.isLeader = true → ch.term = n.term → StageOk g n ch.stage)

structure Inv (g : ShardGroup ι) (w : World ι) : Prop where
  nodes : ∀ i, NodeOk g w (w.nodes i)
  logs : ∀ log ∈ w.logs, Chained g w log

/-- A change starts where the configuration in force is the newest of the log, and the node knows
all but the newest entry to be committed: `pending_change` compares configurations by value. Its
appends land while the node still leads the term of the change. -/
def Orderly (w : World ι) : ι × Op ι → Prop
  | (i, .propose _) => (w.nodes i).installed = (w.nodes i).log ∧
      (w.nodes i).log.length ≤ (w.nodes i).committed + 1
  | (i, .append) => ∀ ch ∈ (w.nodes i).change, (w.nodes i).isLeader = true ∧
      (w.nodes i).term = ch.term
  | _ => True

theorem Follows.ne {c c' : Configuration} (h : Follows c c') : c ≠ c' := by
  rintro rfl
  obtain ⟨-, ⟨hnone, old, hold, -⟩ | ⟨hsome, hnone, -⟩⟩ := h
  · simp [hnone] at hold
  · simp [hnone] at hsome

theorem NodeOk.all_committed (h : NodeOk g w n) (hpending : pendingChange n = none)
    (hlag : n.log.length ≤ n.committed + 1) : n.committed = n.log.length := by
  have hle := h.known.1
  by_contra hne
  have hlen : n.committed = n.log.length - 1 := by omega
  have hlog : n.log ≠ [] := by
    intro hnil
    simp [hnil] at hne hle
    omega
  obtain ⟨e, hlast⟩ := Option.ne_none_iff_exists'.mp (mt List.getLast?_eq_none_iff.mp hlog)
  have htake : n.log.take n.committed = n.log.dropLast := by
    rw [hlen, List.dropLast_eq_take]
  have hfollows := h.log.follows hlog
  simp only [pendingChange, latestConfig, committedConfig, hlast, htake,
    Option.map_some] at hpending
  split_ifs at hpending with hsame
  obtain ⟨e', hlast', heq⟩ := Option.map_eq_some_iff.mp hsame
  refine hfollows.ne ?_
  simp [configOf, hlast, hlast', heq]

theorem canonicalOnto_eq {out urls : List Url} (h : ((out ++ urls).map nodeKey).Nodup) :
    canonicalOnto out urls = out ++ urls := by
  induction urls generalizing out with
  | nil => simp [canonicalOnto]
  | cons u us ih =>
    have hnew : ¬ out.any (fun w => sameEndpoint w u) = true := by
      intro hany
      obtain ⟨x, hx, hxu⟩ := List.any_eq_true.mp hany
      rw [List.map_append, List.nodup_append] at h
      exact h.2.2 (nodeKey x) (List.mem_map_of_mem hx) (nodeKey u) (by simp)
        (sameEndpoint_iff.mp hxu)
    rw [canonicalOnto, if_neg hnew, ih (by simpa using h)]
    simp

theorem canonical_eq {urls : List Url} (h : (urls.map nodeKey).Nodup) : canonical urls = urls :=
  canonicalOnto_eq (by simpa using h)

theorem canonical_ne_nil {urls : List Url} (h : urls ≠ []) : canonical urls ≠ [] := by
  intro hnil
  have hkeys := keys_canonical urls
  rw [hnil] at hkeys
  exact h (by simpa [keys] using hkeys.symm)

/-- A resumed change names the nodes of the incoming half, spelled as it likes. -/
theorem keys_of_resumes {c : Configuration} {next : List Url} (hnodup : (next.map nodeKey).Nodup)
    (h : resumes c next = true) : c.outgoing.isSome = true ∧ keys next = keys c.voters := by
  simp only [resumes, Bool.and_eq_true, decide_eq_true_eq, List.all_eq_true, List.any_eq_true] at h
  obtain ⟨⟨hsome, hlen⟩, hall⟩ := h
  refine ⟨hsome, Finset.eq_of_subset_of_card_le ?_ ?_⟩
  · intro k hk
    obtain ⟨v, hv, rfl⟩ := mem_keys.mp hk
    obtain ⟨u, hu, huv⟩ := hall v hv
    exact mem_keys.mpr ⟨u, hu, sameEndpoint_iff.mp huv⟩
  · have hnext : (keys next).card = next.length := by
      rw [keys, List.toFinset_card_of_nodup hnodup, List.length_map]
    have hvoters : (keys c.voters).card ≤ c.voters.length := by
      simpa [keys] using List.toFinset_card_le (c.voters.map nodeKey)
    omega

theorem follows_simple {c : Configuration} {next : List Url} (hne : next ≠ [])
    (hsome : c.outgoing.isSome = true) (hkeys : keys next = keys c.voters) :
    Follows c (simple next) := by
  refine ⟨?_, .inr ⟨hsome, rfl, ?_⟩⟩
  · intro half hhalf
    obtain rfl : half = canonical next := by simpa [Configuration.halves, simple] using hhalf
    exact canonical_ne_nil hne
  · exact (keys_canonical next).trans hkeys

theorem follows_joint {c : Configuration} {next : List Url} (hne : next ≠ []) (hc : c.voters ≠ [])
    (hnone : c.outgoing = none) : Follows c (joint c.voters (simple next).voters) := by
  refine ⟨?_, .inl ⟨hnone, canonical c.voters, rfl, keys_canonical _⟩⟩
  intro half hhalf
  rcases (by simpa [Configuration.halves, joint] using hhalf :
    half = canonical (simple next).voters ∨ half = canonical c.voters) with rfl | rfl
  · exact canonical_ne_nil (canonical_ne_nil hne)
  · exact canonical_ne_nil hc

theorem joint_follows {c : Configuration} {next : List Url} (hne : next ≠ []) :
    Follows (joint c.voters (simple next).voters) (simple next) :=
  follows_simple hne rfl (by simp [joint, simple, keys_canonical])

theorem NodeOk.propose {next : List Url} (h : NodeOk g w n)
    (horder : n.installed = n.log ∧ n.log.length ≤ n.committed + 1)
    (hstep : propose g i n next = some n') : NodeOk g w n' := by
  unfold Reconfigure.propose at hstep
  dsimp only at hstep
  by_cases hguard : n.change = none ∧ requireLeader g i n n.term ∧
    validNext (quorumConfig g n) next ∧
      pendingChange n = none ∧ next.any (fun v => sameEndpoint v (g.url i)) = true ∧
      unchanged (quorumConfig g n) (simple next) = false
  swap
  · rw [if_neg hguard] at hstep
    simp at hstep
  rw [if_pos hguard] at hstep
  obtain ⟨-, -, ⟨hne, hnodup, hresumes⟩, hpending, -, -⟩ := hguard
  obtain rfl := Option.some.inj hstep
  have hall := h.all_committed hpending horder.2
  have hcurrent : quorumConfig g n = configOf g n.log := by rw [quorumConfig, horder.1]
  have hvoters : (simple next).voters = next := canonical_eq hnodup
  refine ⟨h.log, h.installed, h.known, ?_⟩
  rintro ch hch
  obtain rfl := Option.some.inj hch
  refine ⟨Nat.le_refl _, fun _ _ => ?_⟩
  by_cases hres : resumes (quorumConfig g n) (simple next).voters = true
  · simp only [hres, if_true]
    rw [hvoters, hcurrent] at hres
    obtain ⟨hsome, hkeys⟩ := keys_of_resumes hnodup hres
    exact ⟨hall, follows_simple hne hsome hkeys⟩
  · simp only [hres, Bool.false_eq_true, if_false]
    have hnone : (quorumConfig g n).outgoing = none := by
      by_contra hjoint
      rw [hvoters] at hres
      exact hres (hresumes (Option.isSome_iff_ne_none.mpr hjoint))
    have hpeopled : (configOf g n.log).voters ≠ [] := h.log.peopled _ (voters_mem_halves _)
    rw [hcurrent] at hnone ⊢
    exact ⟨hall, follows_joint hne hpeopled hnone, joint_follows hne⟩

theorem NodeOk.check (h : NodeOk g w n) (hstep : check g i n = some n') : NodeOk g w n' := by
  obtain ⟨ch, hchange, hstep⟩ := Option.bind_eq_some_iff.mp hstep
  obtain ⟨-, hstep⟩ := Option.ite_none_right_eq_some.mp hstep
  obtain rfl := Option.some.inj hstep
  refine ⟨h.log, h.installed, h.known, fun ch' hch' => ?_⟩
  obtain rfl := Option.some.inj hch'
  exact h.change ch hchange

theorem NodeOk.appended {config : Configuration} {stage : Stage} (h : NodeOk g w n)
    (hall : n.committed = n.log.length) (hfollows : Follows (configOf g n.log) config)
    (hstage : StageOk g (appended n n.term config stage) stage) :
    NodeOk g w (appended n n.term config stage) := by
  have hcommitted : IsCommitted w n.log := by
    have := h.known.2
    rwa [hall, List.take_length] at this
  refine ⟨h.log.append hfollows hcommitted, h.installed, ?_, fun ch hch => ?_⟩
  · show n.committed ≤ (n.log ++ [_]).length ∧ IsCommitted w ((n.log ++ [_]).take n.committed)
    rw [hall, List.take_left]
    exact ⟨by simp, hcommitted⟩
  · obtain rfl : _ = ch := Option.some.inj hch
    exact ⟨Nat.le_refl _, fun _ _ => hstage⟩

/-- While the node leads the term of the change, nothing has moved its log since the check. -/
theorem NodeOk.append (h : NodeOk g w n)
    (hleads : ∀ ch ∈ n.change, n.isLeader = true ∧ n.term = ch.term)
    (hstep : append n = some n') : NodeOk g w n' := by
  unfold Reconfigure.append at hstep
  split at hstep
  next term joint target hchange =>
    obtain ⟨hlead, rfl⟩ := hleads _ hchange
    obtain rfl := Option.some.inj hstep
    obtain ⟨hall, hjoint, htarget⟩ := (h.change _ hchange).2 hlead rfl
    refine h.appended hall hjoint ⟨?_, ?_⟩
    · simp [Reconfigure.appended]
    · simpa [Reconfigure.appended, configOf] using htarget
  next term target hchange =>
    obtain ⟨hlead, rfl⟩ := hleads _ hchange
    obtain rfl := Option.some.inj hstep
    obtain ⟨hall, htarget⟩ := (h.change _ hchange).2 hlead rfl
    exact h.appended hall htarget trivial
  next => simp at hstep

theorem NodeOk.advance (h : NodeOk g w n) (hstep : advance g i n = some n') : NodeOk g w n' := by
  unfold Reconfigure.advance at hstep
  split at hstep
  next term joint target len appending hchange =>
    split_ifs at hstep with hguard
    obtain ⟨hlen, hlead, rfl, -⟩ := hguard
    obtain rfl := Option.some.inj hstep
    obtain ⟨hawait, htarget⟩ := (h.change _ hchange).2 hlead rfl
    refine ⟨h.log, h.installed, h.known, ?_⟩
    rintro ch hch
    obtain rfl := Option.some.inj hch
    refine ⟨Nat.le_refl _, fun _ _ => ⟨?_, htarget⟩⟩
    exact Nat.le_antisymm h.known.1 (hawait ▸ hlen)
  next => simp at hstep

theorem NodeOk.refreshed (h : NodeOk g w n) : NodeOk g w (refreshed n) := by
  unfold Reconfigure.refreshed
  split_ifs
  · exact h
  · exact ⟨h.log, h.log, h.known, h.change⟩

theorem NodeOk.receive {log : ConfigLog} (h : NodeOk g w n) (hchained : Chained g w log)
    (hstep : receive n log = some n') : NodeOk g w n' := by
  unfold Reconfigure.receive at hstep
  split_ifs at hstep with hguard
  obtain ⟨hfollower, hkept⟩ := hguard
  obtain rfl := Option.some.inj hstep
  have hlen : (n.log.take n.committed).length = n.committed := by
    rw [List.length_take]
    exact Nat.min_eq_left h.known.1
  have htake : log.take n.committed = n.log.take n.committed := by
    have := List.prefix_iff_eq_take.mp hkept
    rwa [hlen, eq_comm] at this
  have hknown : n.committed ≤ log.length ∧ IsCommitted w (log.take n.committed) :=
    ⟨hlen ▸ hkept.length_le, htake ▸ h.known.2⟩
  exact ⟨hchained, h.installed, hknown,
    fun ch hch => ⟨(h.change ch hch).1, fun hlead => by simp [hfollower] at hlead⟩⟩

/-- Learning of a commit; a change that relies on a fully committed log has nothing to learn. -/
theorem NodeOk.learnt {w' : World ι} {len : ℕ} (h : NodeOk g w' n) (hlt : n.committed < len)
    (hle : len ≤ n.log.length) (hcommitted : IsCommitted w' (n.log.take len)) :
    NodeOk g w' { n with committed := len } := by
  refine ⟨h.log, h.installed, ⟨hle, hcommitted⟩, fun ch hch => ?_⟩
  obtain ⟨hterm, hstage⟩ := h.change ch hch
  refine ⟨hterm, fun hlead heq => ?_⟩
  have hok := hstage hlead heq
  cases hs : ch.stage with
  | joining joint target =>
    rw [hs] at hok
    have := hok.1
    omega
  | awaiting joint target len' =>
    rw [hs] at hok
    exact hok
  | leaving target =>
    rw [hs] at hok
    have := hok.1
    omega
  | settled => trivial

theorem IsCommitted.mono {w' : World ι} {p : ConfigLog} (h : IsCommitted w p)
    (hsub : ∀ q ∈ w.committed, q ∈ w'.committed) : IsCommitted w' p :=
  h.imp_right fun ⟨q, hq, hp⟩ => ⟨q, hsub q hq, hp⟩

theorem Chained.mono {w' : World ι} {log : ConfigLog} (h : Chained g w log)
    (hsub : ∀ q ∈ w.committed, q ∈ w'.committed) : Chained g w' log :=
  fun p e hpe => ⟨(h p e hpe).1, (h p e hpe).2.mono hsub⟩

theorem NodeOk.mono {w' : World ι} (h : NodeOk g w n)
    (hsub : ∀ q ∈ w.committed, q ∈ w'.committed) : NodeOk g w' n :=
  ⟨h.log.mono hsub, h.installed.mono hsub, ⟨h.known.1, h.known.2.mono hsub⟩, h.change⟩

theorem Inv.mono {w' : World ι} (h : Inv g w) (hnodes : w'.nodes = w.nodes)
    (hlogs : w'.logs = w.logs) (hsub : ∀ q ∈ w.committed, q ∈ w'.committed) : Inv g w' :=
  ⟨fun i => hnodes ▸ (h.nodes i).mono hsub, fun log hlog => (h.logs log (hlogs ▸ hlog)).mono hsub⟩

theorem Inv.setNode [DecidableEq ι] (h : Inv g w) (hn : NodeOk g w n) : Inv g (w.setNode i n) := by
  constructor
  · intro j
    by_cases hj : j = i
    · subst hj
      have hself : NodeOk g (w.setNode j n) n := hn.mono fun q hq => hq
      simpa [World.setNode] using hself
    · have hother : NodeOk g (w.setNode i n) (w.nodes j) := (h.nodes j).mono fun q hq => hq
      simpa [World.setNode, hj] using hother
  · intro log hlog
    rcases List.mem_cons.mp hlog with rfl | hold
    · exact hn.log
    · exact h.logs log hold

theorem step_inv [DecidableEq ι] {w' : World ι} {label : ι × Op ι} (h : Inv g w)
    (horder : Orderly w label) (hstep : step g w label = some w') : Inv g w' := by
  obtain ⟨i, op⟩ := label
  have hn := h.nodes i
  cases op with
  | lead term =>
    simp only [step] at hstep
    split_ifs at hstep with hlt
    obtain rfl := Option.some.inj hstep
    refine h.setNode ⟨hn.log, hn.installed, hn.known, fun ch hch => ?_⟩
    have hterm : ch.term ≤ (w.nodes i).term := (hn.change ch hch).1
    refine ⟨Nat.le_of_lt (Nat.lt_of_le_of_lt hterm hlt), fun _ heq => ?_⟩
    exact absurd heq (Nat.ne_of_lt (Nat.lt_of_le_of_lt hterm hlt))
  | depose term =>
    simp only [step] at hstep
    split_ifs at hstep with hle
    obtain rfl := Option.some.inj hstep
    refine h.setNode ⟨hn.log, hn.installed, hn.known, fun ch hch => ?_⟩
    exact ⟨Nat.le_trans (hn.change ch hch).1 hle, fun hlead => by simp at hlead⟩
  | restart =>
    obtain rfl := Option.some.inj hstep
    exact h.setNode ⟨hn.log, hn.log, hn.known, by simp [restarted]⟩
  | propose next =>
    obtain ⟨n', hpropose, rfl⟩ := Option.map_eq_some_iff.mp hstep
    exact h.setNode (hn.propose horder hpropose)
  | check =>
    obtain ⟨n', hcheck, rfl⟩ := Option.map_eq_some_iff.mp hstep
    exact h.setNode (hn.check hcheck)
  | append =>
    obtain ⟨n', happend, rfl⟩ := Option.map_eq_some_iff.mp hstep
    exact h.setNode (hn.append horder happend)
  | refresh =>
    obtain rfl := Option.some.inj hstep
    exact h.setNode hn.refreshed
  | advance =>
    obtain ⟨n', hadvance, rfl⟩ := Option.map_eq_some_iff.mp hstep
    exact h.setNode (hn.advance hadvance)
  | endChange =>
    obtain ⟨n', hend, rfl⟩ := Option.map_eq_some_iff.mp hstep
    unfold endChange at hend
    split_ifs at hend
    obtain rfl := Option.some.inj hend
    exact h.setNode ⟨hn.log, hn.installed, hn.known, by simp⟩
  | receive k len =>
    obtain ⟨log, hlog, hstep⟩ := Option.bind_eq_some_iff.mp hstep
    obtain ⟨n', hreceive, rfl⟩ := Option.map_eq_some_iff.mp hstep
    have hchained : Chained g w (log.take len) :=
      (h.logs log (List.mem_of_getElem? hlog)).shorten (List.take_prefix len log)
    exact h.setNode (hn.receive hchained hreceive)
  | commit len holders =>
    have hstep : commit g w i len holders = some w' := hstep
    unfold commit at hstep
    dsimp only at hstep
    split_ifs at hstep with hguard
    obtain ⟨-, hlt, hle, -⟩ := hguard
    obtain rfl := Option.some.inj hstep
    -- The prefix is on record first; then the leader knows of it.
    have hrecorded : Inv g { w with committed := (w.nodes i).log.take len :: w.committed } :=
      h.mono rfl rfl fun q hq => List.mem_cons_of_mem _ hq
    have hcommitted : IsCommitted { w with committed := (w.nodes i).log.take len :: w.committed }
        ((w.nodes i).log.take len) := .inr ⟨_, List.mem_cons_self, List.prefix_rfl⟩
    exact hrecorded.setNode ((hrecorded.nodes i).learnt hlt hle hcommitted)
  | learn len =>
    have hstep : learn w i len = some w' := hstep
    unfold learn at hstep
    dsimp only at hstep
    split_ifs at hstep with hguard
    obtain ⟨hlt, hle, hcommitted⟩ := hguard
    obtain rfl := Option.some.inj hstep
    exact h.setNode (hn.learnt hlt hle (.inr hcommitted))

theorem initial_inv (h : Initial w) : Inv g w := by
  refine ⟨fun i => ?_, by simp [h.2.1]⟩
  obtain ⟨hlog, hinstalled, hcommitted, hchange⟩ := h.1 i
  refine ⟨hlog ▸ .nil, hinstalled ▸ .nil, ?_, by simp [hchange]⟩
  simp [hcommitted, hlog, IsCommitted]

/-- The log whose newest entry is in force at the node has every entry that a leader has committed.
-/
def HoldsCommitted (w : World ι) (i : ι) : Prop := ∀ q ∈ w.committed, q <+: (w.nodes i).installed

instance (w : World ι) (i : ι) : Decidable (HoldsCommitted w i) :=
  inferInstanceAs (Decidable (∀ q ∈ w.committed, q <+: (w.nodes i).installed))

/-- All but the newest entry of what any node has in force has committed, so it is in force at a
node that has every committed entry. -/
theorem Inv.dropLast_prefix (h : Inv g w) {i j : ι} (hj : HoldsCommitted w j) :
    (w.nodes i).installed.dropLast <+: (w.nodes j).installed := by
  rcases (h.nodes i).installed.dropLast with hnil | ⟨q, hq, hpre⟩
  · rw [hnil]
    exact List.nil_prefix
  · exact hpre.trans (hj q hq)

instance (w : World ι) : ∀ label, Decidable (Orderly w label)
  | (i, .propose _) => inferInstanceAs (Decidable
      ((w.nodes i).installed = (w.nodes i).log ∧
        (w.nodes i).log.length ≤ (w.nodes i).committed + 1))
  | (i, .append) => inferInstanceAs (Decidable
      (∀ ch ∈ (w.nodes i).change, (w.nodes i).isLeader = true ∧ (w.nodes i).term = ch.term))
  | (_, .lead _) | (_, .depose _) | (_, .restart) | (_, .check) | (_, .refresh) | (_,
      .advance) | (_, .endChange)
  | (_, .receive _ _) | (_, .commit _ _) | (_, .learn _) => isTrue trivial

/-- Five nodes, of which `a`, `b` and `c` vote at first. -/
def fiveNodes : ShardGroup (Fin 5) where
  url := ![['a'], ['b'], ['c'], ['d'], ['e']]
  voters := [['a'], ['b'], ['c']]
  voters_ne := by decide

def freshWorld : World (Fin 5) := ⟨fun _ => ⟨0, false, [], 0, [], none⟩, [], []⟩

/-- Node `a` moves the voters to `a`, `d` and `e`; `b` hears nothing of it. -/
def moveVoters : List (Fin 5 × Op (Fin 5)) :=
  [(0, .lead 1), (0, .propose [['a'], ['d'], ['h', 't', 't', 'p', ':', '/', '/', 'E']]),
    (0, .check),
    (0, .append), (0, .refresh), (2, .receive 0 1), (2, .refresh), (3, .receive 0 1), (3, .refresh),
    (4, .receive 0 1), (4, .refresh), (0, .commit 1 [0, 2, 3]), (0, .advance),
    (0, .check), (0, .append),
    (0, .refresh), (3, .receive 0 2), (3, .refresh), (0, .commit 2 [0, 3]), (4, .receive 0 2),
    (4, .refresh), (0, .endChange)]

/-- Node `a` has checked its leadership of term 1 when `b` wins term 2 and commits a change to `b`,
`c` and `d`; the append of `a` lands on it. -/
def deposedAppend : List (Fin 5 × Op (Fin 5)) :=
  [(0, .lead 1), (0, .propose [['a'], ['d'], ['e']]), (0, .check), (0, .depose 2), (1, .lead 2),
    (1, .propose [['b'], ['c'], ['d']]), (1, .check), (1, .append), (1, .refresh),
    (2, .receive 0 1),
    (2, .refresh), (3, .receive 0 1), (3, .refresh), (1, .commit 1 [1, 2, 3]),
    (0, .receive 0 1), (0, .append),
    (0, .refresh), (1, .advance), (1, .check), (1, .append), (1, .refresh)]

/-- Both have every committed entry in force, and their quorums `a`, `b`, `e` and `c`, `d` do not
meet. -/
theorem deposed_append_parts :
    ∃ w, run (step fiveNodes) freshWorld deposedAppend = some w ∧ HoldsCommitted w 0 ∧
      HoldsCommitted w 1 ∧
      ¬ (quorumConfig fiveNodes (w.nodes 0)).Meets (quorumConfig fiveNodes (w.nodes 1)) := by
  have hends : (run (step fiveNodes) freshWorld deposedAppend).map (fun w =>
      ((decide (HoldsCommitted w 0), decide (HoldsCommitted w 1)),
        (quorumConfig fiveNodes (w.nodes 0)).hasQuorum [['a'], ['b'], ['e']],
        (quorumConfig fiveNodes (w.nodes 1)).hasQuorum [['c'], ['d']])) = some
          ((true, true), true, true) := by
    decide
  obtain ⟨w, hrun, hw⟩ := Option.map_eq_some_iff.mp hends
  obtain ⟨hholds, hquorums⟩ := Prod.mk.inj hw
  obtain ⟨h0, h1⟩ := Prod.mk.inj hholds
  obtain ⟨hq0, hq1⟩ := Prod.mk.inj hquorums
  refine ⟨w, hrun, of_decide_eq_true h0, of_decide_eq_true h1, fun hmeets => ?_⟩
  have hnone : ¬ ∃ x ∈ [['a'], ['b'], ['e']], ∃ y ∈ [['c'], ['d']], sameEndpoint x y = true := by
    decide
  exact hnone (hmeets _ _ hq0 hq1)

end DewDB.Reconfigure
