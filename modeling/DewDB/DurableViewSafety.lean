import DewDB.DurableAgreement

/-!
# The durable view moves forward and catches up

While every save that writes over the stored view brings all that was stored, the stored view only
moves forward. An offered view is on disk before it is in memory and a gain of the catalogue is in
memory before it is on disk, and in either case a call is under way that will close the gap; when no
call is left the two are equal.
-/
namespace DewDB.DurableView

open Std (ExtTreeMap)
open ReplicationMeta (NodeId)
open CatalogMerge hiding supersedes_iff not_supersedes_self
open Vote StorageEntry ClusterMeta TransitionSystem

section Synced

variable {s : State} {current old next v : ClusterMetadata} {tasks : List Phase} {i : ℕ}

/-- How the view in memory and the stored one are apart, and which calls will bring them together.
-/
structure Synced (tasks : List Phase) (current old : ClusterMetadata) : Prop where
  le : IdLe current old
  source : SameId old current ∨ ∃ x, .adopting x ∈ tasks ∧ SameId old x
  saving : ∀ x, .saving x ∈ tasks → x.seeded = false ∧ (old.seeded = true → x.supersedes old = true)
  adopting : ∀ x, .adopting x ∈ tasks → IdLe x old ∨ x.supersedes current = false
  writing : ∀ x, .writing x ∈ tasks → IdLe x current ∧ CatLe x.indexCatalog current.indexCatalog
  covered : ∀ k e, current.indexCatalog[k]? = some e → Carries old.indexCatalog k e ∨
    .persisting ∈ tasks ∨ ∃ x, .writing x ∈ tasks ∧ Carries x.indexCatalog k e
  known : ∀ k e, old.indexCatalog[k]? = some e → Carries current.indexCatalog k e ∨
    ∃ x, .adopting x ∈ tasks ∧ Carries x.indexCatalog k e

theorem Synced.refl (v : ClusterMetadata) : Synced [] v v where
  le := .refl v
  source := .inl (.refl v)
  saving := by simp
  adopting := by simp
  writing := by simp
  covered _ _ h := .inl (carries_self h)
  known _ _ h := .inl (carries_self h)

theorem Synced.eq (h : Synced [] current old) (hagree : Agree old current) : old = current := by
  have hid : SameId old current := by simpa using h.source
  refine hagree.eq hid (fun k e he => ?_) fun k e he => ?_
  · simpa using h.known k e he
  · simpa using h.covered k e he

theorem Synced.seeded (h : Synced tasks current old) (hseed : old.seeded = true) :
    SameId old current :=
  h.le.sameId_of_seeded hseed

theorem Synced.offer (h : Synced s.tasks current old) (incoming : ClusterMetadata) :
    Synced (s.tasks ++ offerPhase current incoming) current old where
  le := h.le
  source := h.source.imp_right fun ⟨x, hx, hid⟩ => ⟨x, List.mem_append_left _ hx, hid⟩
  saving x hx := by
    rcases List.mem_append.mp hx with hx | hx
    · exact h.saving x hx
    · obtain ⟨rfl, hwins⟩ := saving_mem_offerPhase hx
      refine ⟨(ClusterMeta.supersedes_iff.mp hwins).1, fun hseed => ?_⟩
      rw [(SameId.refl _).supersedes_eq (h.seeded hseed)]
      exact hwins
  adopting x hx := by
    rcases List.mem_append.mp hx with hx | hx
    · exact h.adopting x hx
    · exact .inr (adopting_mem_offerPhase hx).2
  writing x hx := by
    rcases List.mem_append.mp hx with hx | hx
    · exact h.writing x hx
    · rcases (offerPhase_mem hx).2 with h | h <;> cases h
  covered k e he := (h.covered k e he).imp_right fun h =>
    h.imp (List.mem_append_left _) fun ⟨x, hx, hc⟩ => ⟨x, List.mem_append_left _ hx, hc⟩
  known k e he := (h.known k e he).imp_right fun ⟨x, hx, hc⟩ => ⟨x, List.mem_append_left _ hx, hc⟩

theorem Synced.save_offered (h : Synced s.tasks current old) (hi : s.tasks[i]? = some (.saving v))
    (hw : Written v old next) : Synced (s.after i [.adopting v]) current next := by
  obtain ⟨hdecided, hseed⟩ := h.saving v (List.mem_of_getElem? hi)
  have hnew : Phase.adopting v ∈ s.after i [.adopting v] :=
    mem_after_of_mem_next (List.mem_singleton.mpr rfl)
  have hle : IdLe v next := by
    cases hw with
    | onto => exact .refl _
    | merged hloses =>
      have hold : old.seeded = false := by
        rw [Bool.eq_false_iff]
        intro hs
        rw [hseed hs] at hloses
        cases hloses
      exact (idLe_of_not_supersedes hdecided hold hloses).trans (.inl ⟨rfl, rfl, rfl⟩)
  constructor
  · exact h.le.trans hw.idLe
  · cases hw with
    | onto => exact .inr ⟨_, hnew, .refl _⟩
    | merged =>
      rcases h.source with hid | ⟨x, hx, hid⟩
      · exact .inl ⟨hid.version, hid.updatedBy, hid.seeded⟩
      · exact .inr ⟨x, mem_after_of_ne hi hx (by simp), ⟨hid.version, hid.updatedBy, hid.seeded⟩⟩
  · intro x hx
    have hx : .saving x ∈ s.tasks := (mem_after hx).resolve_right (by simp)
    refine ⟨(h.saving x hx).1, fun hs => ?_⟩
    have hid := hw.idLe.sameId_of_seeded hs
    rw [(SameId.refl x).supersedes_eq hid]
    exact (h.saving x hx).2 (hid.seeded ▸ hs)
  · intro x hx
    rcases mem_after hx with hx | hx
    · exact (h.adopting x hx).imp_left fun hle => hle.trans hw.idLe
    · obtain rfl : x = v := by simpa using hx
      exact .inl hle
  · exact fun x hx => h.writing x ((mem_after hx).resolve_right (by simp))
  · intro k e he
    rcases h.covered k e he with hc | hp | ⟨x, hx, hc⟩
    · exact .inl (hc.mono hw.catLe)
    · exact .inr (.inl (mem_after_of_ne hi hp (by simp)))
    · exact .inr (.inr ⟨x, mem_after_of_ne hi hx (by simp), hc⟩)
  · intro k e he
    have hcases : old.indexCatalog[k]? = some e ∨ v.indexCatalog[k]? = some e := by
      cases hw with
      | onto => exact .inr he
      | merged => exact (mem_mergeCatalog he).imp_right And.left
    rcases hcases with he | he
    · rcases h.known k e he with hc | ⟨x, hx, hc⟩
      · exact .inl hc
      · exact .inr ⟨x, mem_after_of_ne hi hx (by simp), hc⟩
    · exact .inr ⟨v, hnew, carries_self he⟩

theorem Synced.save_copy (h : Synced s.tasks current old) (hi : s.tasks[i]? = some (.writing v))
    (hw : Written v old next) (hclean : Clean v.indexCatalog) :
    Synced (s.after i []) current next := by
  obtain ⟨hle, hcat⟩ := h.writing v (List.mem_of_getElem? hi)
  have hback (p : Phase) (hp : p ∈ s.after i []) : p ∈ s.tasks :=
    (mem_after hp).resolve_right (by simp)
  have hid : SameId next old := by
    cases hw with
    | onto hid _ => exact hid.antisymm (hle.trans h.le)
    | merged => exact ⟨rfl, rfl, rfl⟩
  constructor
  · exact h.le.trans hw.idLe
  · rcases h.source with hold | ⟨x, hx, hold⟩
    · exact .inl (hid.trans hold)
    · exact .inr ⟨x, mem_after_of_ne hi hx (by simp), hid.trans hold⟩
  · intro x hx
    refine ⟨(h.saving x (hback _ hx)).1, fun hs => ?_⟩
    rw [(SameId.refl x).supersedes_eq hid]
    exact (h.saving x (hback _ hx)).2 (hid.seeded ▸ hs)
  · exact fun x hx => (h.adopting x (hback _ hx)).imp_left fun hle => hle.trans hw.idLe
  · exact fun x hx => h.writing x (hback _ hx)
  · intro k e he
    rcases h.covered k e he with hc | hp | ⟨x, hx, hc⟩
    · exact .inl (hc.mono hw.catLe)
    · exact .inr (.inl (mem_after_of_ne hi hp (by simp)))
    · rcases @mem_after_or _ _ _ _ [] hi hx with heq | hx
      · cases heq
        exact .inl (hc.mono (hw.catLe_right hclean))
      · exact .inr (.inr ⟨x, hx, hc⟩)
  · intro k e he
    have hcases : old.indexCatalog[k]? = some e ∨ v.indexCatalog[k]? = some e := by
      cases hw with
      | onto => exact .inr he
      | merged => exact (mem_mergeCatalog he).imp_right And.left
    rcases hcases with he | he
    · rcases h.known k e he with hc | ⟨x, hx, hc⟩
      · exact .inl hc
      · exact .inr ⟨x, mem_after_of_ne hi hx (by simp), hc⟩
    · exact .inl (hcat k e he)

/-- A view in memory that is replaced by a later one, with what its catalogue gains on the way to
disk. -/
theorem Synced.adopt (h : Synced s.tasks current old) (hi : s.tasks[i]? = some (.adopting v))
    (hv : v.validate = .ok ()) (hclean : Clean v.indexCatalog)
    (hnext : next = (ClusterMeta.adopt current v).1) :
    Synced (s.after i (if next.indexCatalog = current.indexCatalog then [] else [.persisting]))
      next old := by
  have hback (p : Phase) (hp : p ∈ s.after i (if next.indexCatalog = current.indexCatalog then []
      else [.persisting])) (hne : p ≠ .persisting) : p ∈ s.tasks := by
    refine (mem_after hp).resolve_right fun hp => ?_
    split at hp
    · cases hp
    · exact hne (List.mem_singleton.mp hp)
  have htop := @adopt_topology current _ (sanitized_valid hv)
  have hcat := @adopt_indexCatalog current _ (sanitized_valid hv)
  rw [sanitizeCatalog_of_clean hclean] at hcat
  rw [← hnext] at htop hcat
  have hgain : CatLe current.indexCatalog next.indexCatalog := hcat ▸ catLe_mergeCatalog _ _
  have htook : CatLe v.indexCatalog next.indexCatalog := hcat ▸ catLe_mergeCatalog_right _ hclean
  have hadopting := h.adopting v (List.mem_of_getElem? hi)
  have hid : (v.supersedes current = true ∧ SameId next v ∧ IdLe v old) ∨
      (v.supersedes current = false ∧ SameId next current) := by
    split at htop
    · next hwins => exact .inl ⟨hwins, .of_topology htop, hadopting.resolve_right (by simp [hwins])⟩
    · next hloses => exact .inr ⟨Bool.eq_false_iff.mpr hloses, .of_topology htop⟩
  have hup : IdLe current next := by
    rcases hid with ⟨hwins, hid, -⟩ | ⟨-, hid⟩
    · exact IdLe.trans (.inr hwins) (.inl hid)
    · exact .inl hid
  constructor
  · rcases hid with ⟨-, hid, hle⟩ | ⟨-, hid⟩
    · exact IdLe.trans (.inl hid.symm) hle
    · exact IdLe.trans (.inl hid.symm) h.le
  · rcases h.source with hold | ⟨x, hx, hold⟩
    · rcases hid with ⟨hwins, -, hle⟩ | ⟨-, hid⟩
      · have hloses := (IdLe.trans hle (.inl hold.symm)).not_supersedes
        rw [hloses] at hwins
        cases hwins
      · exact .inl (hold.trans hid.symm)
    · rcases @mem_after_or _ _ _ _ (if next.indexCatalog = current.indexCatalog then []
        else [.persisting]) hi hx with heq | hx
      · cases heq
        rcases hid with ⟨-, hid, -⟩ | ⟨hloses, hid⟩
        · exact .inl (hold.trans hid.symm)
        · refine .inl (SameId.trans ?_ hid.symm)
          rcases h.le with hsame | hwins
          · exact hsame
          · rw [hold.supersedes_eq (.refl current), hloses] at hwins
            cases hwins
      · exact .inr ⟨x, hx, hold⟩
  · exact fun x hx => h.saving x (hback _ hx (by simp))
  · intro x hx
    refine (h.adopting x (hback _ hx (by simp))).imp_right fun hloses => ?_
    rw [Bool.eq_false_iff] at hloses ⊢
    intro hwins
    rcases hup with hsame | hup
    · rw [(SameId.refl x).supersedes_eq hsame] at hwins
      exact hloses hwins
    · exact hloses (supersedes_trans hwins hup)
  · intro x hx
    obtain ⟨hle, hcat⟩ := h.writing x (hback _ hx (by simp))
    exact ⟨hle.trans hup, hcat.trans hgain⟩
  · intro k e he
    by_cases hsame : next.indexCatalog = current.indexCatalog
    · rw [if_pos hsame]
      rw [hsame] at he
      rcases h.covered k e he with hc | hp | ⟨x, hx, hc⟩
      · exact .inl hc
      · exact .inr (.inl (mem_after_of_ne hi hp (by simp)))
      · exact .inr (.inr ⟨x, mem_after_of_ne hi hx (by simp), hc⟩)
    · rw [if_neg hsame]
      exact .inr (.inl (mem_after_of_mem_next (List.mem_singleton.mpr rfl)))
  · intro k e he
    rcases h.known k e he with hc | ⟨x, hx, hc⟩
    · exact .inl (hc.mono hgain)
    · rcases @mem_after_or _ _ _ _ (if next.indexCatalog = current.indexCatalog then []
        else [.persisting]) hi hx with heq | hx
      · cases heq
        exact .inl (hc.mono htook)
      · exact .inr ⟨x, hx, hc⟩

theorem Synced.update (h : Synced s.tasks current old) (hid : SameId next current)
    (hgain : CatLe current.indexCatalog next.indexCatalog) {moved : Bool}
    (hsame : moved = false → next = current) :
    Synced (s.tasks ++ if moved then [.persisting] else []) next old := by
  have hback (p : Phase) (hp : p ∈ s.tasks ++ if moved then [.persisting] else [])
    (hne : p ≠ .persisting) :
      p ∈ s.tasks := by
    refine (List.mem_append.mp hp).resolve_right fun hp => ?_
    split at hp
    · exact hne (List.mem_singleton.mp hp)
    · cases hp
  constructor
  · exact IdLe.trans (.inl hid.symm) h.le
  · rcases h.source with hold | ⟨x, hx, hold⟩
    · exact .inl (hold.trans hid.symm)
    · exact .inr ⟨x, List.mem_append_left _ hx, hold⟩
  · exact fun x hx => h.saving x (hback _ hx (by simp))
  · intro x hx
    rw [(SameId.refl x).supersedes_eq hid]
    exact h.adopting x (hback _ hx (by simp))
  · intro x hx
    obtain ⟨hle, hcat⟩ := h.writing x (hback _ hx (by simp))
    exact ⟨hle.trans (.inl hid), hcat.trans hgain⟩
  · intro k e he
    cases moved with
    | true => exact .inr (.inl (List.mem_append_right _ (List.mem_singleton.mpr rfl)))
    | false =>
      rw [hsame rfl] at he
      exact (h.covered k e he).imp_right fun h =>
        h.imp (List.mem_append_left _) fun ⟨x, hx, hc⟩ => ⟨x, List.mem_append_left _ hx, hc⟩
  · intro k e he
    rcases h.known k e he with hc | ⟨x, hx, hc⟩
    · exact .inl (hc.mono hgain)
    · exact .inr ⟨x, List.mem_append_left _ hx, hc⟩

theorem Synced.clone (h : Synced s.tasks current old) (hi : s.tasks[i]? = some .persisting) :
    Synced (s.after i [.writing current]) current old where
  le := h.le
  source := h.source.imp_right fun ⟨x, hx, hid⟩ => ⟨x, mem_after_of_ne hi hx (by simp), hid⟩
  saving x hx := h.saving x ((mem_after hx).resolve_right (by simp))
  adopting x hx := h.adopting x ((mem_after hx).resolve_right (by simp))
  writing x hx := by
    rcases mem_after hx with hx | hx
    · exact h.writing x hx
    · obtain rfl : x = current := by simpa using hx
      exact ⟨.refl x, .refl _⟩
  covered k e he := .inr (.inr ⟨current, mem_after_of_mem_next (List.mem_singleton.mpr rfl),
    carries_self he⟩)
  known k e he := (h.known k e he).imp_right fun ⟨x, hx, hc⟩ =>
    ⟨x, mem_after_of_ne hi hx (by simp), hc⟩

end Synced

section Run

variable {nodeId : NodeId} {seed : ClusterMetadata} {s s' : State} {l : Label}
  {v w x : ClusterMetadata}

def Held (s : State) (v : ClusterMetadata) : Prop :=
  s.memory = some v ∨ load s.disk = .ok (some v) ∨ ∃ p ∈ s.tasks, p.view? = some v

/-- What a step must not do: write over what is stored without bringing it along, merge beyond the
bound, leave a torn staging file alone on the disk, bring in a view that contradicts one that the
node holds, or record a change that nodes cannot act on. -/
def Steady (nodeId : NodeId) (seed : ClusterMetadata) (s : State) : Label → Prop
  | .offer incoming => ∀ w, Held s w → Agree incoming.sanitized w
  | .save i o => ∀ p ∈ s.tasks[i]?, ∀ v ∈ p.toSave?, SaveKeeps v o s.disk
  | .update u => InBounds seed s (.update u) ∧ ∀ current ∈ s.memory, u.Fits nodeId current ∧
      ∀ w, Held s w → Agree (u.applyTo nodeId current).1 w
  | l => InBounds seed s l

theorem Steady.inBounds (h : Steady nodeId seed s l) : InBounds seed s l := by
  cases l with
  | offer incoming => trivial
  | save i o => exact fun p hp v hv => (h p hp v hv).toSaveInBounds
  | update u => exact h.1
  | _ => exact h

structure Tracked (s : State) : Prop extends AllValid s where
  down : s.memory = none → s.tasks = []
  clean : ∀ v, Held s v → Clean v.indexCatalog
  agree : ∀ v w, Held s v → Held s w → Agree v w
  synced : s.saved = true → ∀ current ∈ s.memory, ∃ old, load s.disk = .ok (some old) ∧
    Synced s.tasks current old

theorem held_after {i : ℕ} {next : List Phase} {p : Phase} (hp : p ∈ s.after i next)
    (hv : p.view? = some v) (hnext : ∀ q ∈ next, ∀ u, q.view? = some u → Held s u) : Held s v := by
  rcases mem_after hp with hp | hp
  · exact .inr (.inr ⟨p, hp, hv⟩)
  · exact hnext p hp v hv

theorem Tracked.derived_of_save (h : Tracked s) {o : Outcome} (hv : Held s v)
    (hvalid : v.validate = .ok ())
    (hkeep : SaveKeeps v o s.disk) (hx : load (save v o s.disk).1 = .ok (some x)) :
    Derived (Held s) x := by
  rcases load_save h.disk hkeep.toSaveInBounds hvalid (h.clean v hv)
    with ⟨hsame, -⟩ | ⟨w, hto, hload⟩
  · exact .of (.inr (.inl (hsame.symm.trans hx)))
  · obtain rfl : w = x := by simpa using hload.symm.trans hx
    obtain ⟨r, hr⟩ := h.disk.load
    cases r with
    | none =>
      have hnone : stored o s.disk = none := by
        cases hs : stored o s.disk with
        | none => rfl
        | some old => simpa [hr] using (stored_eq_some.mp hs).2
      rw [hnone] at hto
      exact Option.some.inj hto ▸ .of hv
    | some old => exact (written_of_toWrite hkeep hr hto).derived (.inr (.inl hr)) hv

/-- A state that holds only views put together from what was held before. -/
theorem Tracked.of_derived (h : Tracked s) (hvalid : AllValid s')
    (hdown : s'.memory = none → s'.tasks = [])
    (hclean : ∀ v, Held s' v → Clean v.indexCatalog) (hheld : ∀ v, Held s' v → Derived (Held s) v)
    (hsynced : s'.saved = true → ∀ current ∈ s'.memory,
      ∃ old, load s'.disk = .ok (some old) ∧ Synced s'.tasks current old) : Tracked s' where
  toAllValid := hvalid
  down := hdown
  clean := hclean
  agree v w hv hw := (hheld v hv).agree h.agree (hheld w hw)
  synced := hsynced

theorem Tracked.save (h : Tracked s) {i : ℕ} {o : Outcome} {q : Phase} {next : List Phase}
    (hi : s.tasks[i]? = some q) (hq : q.view? = some v) (hkeep : SaveKeeps v o s.disk)
    (hvalid : AllValid { s with
      disk := (save v o s.disk).1
      saved := s.saved && (save v o s.disk).2
      tasks := s.after i next })
    (hnext : ∀ p ∈ next, p.view? = some v)
    (hsynced : ∀ current old new, Synced s.tasks current old → Written v old new →
      Synced (s.after i next) current new) :
    Tracked { s with
      disk := (save v o s.disk).1
      saved := s.saved && (save v o s.disk).2
      tasks := s.after i next } := by
  have hmem : q ∈ s.tasks := List.mem_of_getElem? hi
  have hv : Held s v := .inr (.inr ⟨q, hmem, hq⟩)
  have hok : v.validate = .ok () := h.tasks q hmem v hq
  have htask (p : Phase) (u : ClusterMetadata) (hp : p ∈ s.after i next) (hu : p.view? = some u) :
    Held s u := by
    refine held_after hp hu fun p' hp' u' hu' => ?_
    rw [hnext p' hp'] at hu'
    exact Option.some.inj hu' ▸ hv
  refine h.of_derived hvalid (fun hm => ?_) (fun u hu => ?_) (fun u hu => ?_)
    fun hsaved current hm => ?_
  · rw [h.down hm] at hmem
    cases hmem
  · rcases hu with hu | hu | ⟨p, hp, hu⟩
    · exact h.clean u (.inl hu)
    · exact (load_spec hu).2
    · exact h.clean u (htask p u hp hu)
  · rcases hu with hu | hu | ⟨p, hp, hu⟩
    · exact .of (.inl hu)
    · exact h.derived_of_save hv hok hkeep hu
    · exact .of (htask p u hp hu)
  · obtain ⟨hbefore, hsave⟩ := Bool.and_eq_true_iff.mp hsaved
    obtain ⟨old, hold, hs⟩ := h.synced hbefore current hm
    obtain ⟨new, hnew, hw⟩ := written_of_save h.disk hkeep hok (h.clean v hv) hsave hold
    exact ⟨new, hnew, hsynced current old new hs hw⟩

theorem Tracked.offer (h : Tracked s) {incoming : ClusterMetadata} (hvalid : AllValid s')
    (hok : Steady nodeId seed s (.offer incoming))
    (hstep : DurableView.step nodeId seed s (.offer incoming) = some s') : Tracked s' := by
  obtain ⟨current, hm, rfl⟩ := Option.map_eq_some_iff.mp hstep
  have hheld (v : ClusterMetadata) (hv :
    Held { s with tasks := s.tasks ++ offerPhase current incoming } v) :
      Held s v ∨ v = incoming.sanitized := by
    rcases hv with hv | hv | ⟨p, hp, hv⟩
    · exact .inl (.inl hv)
    · exact .inl (.inr (.inl hv))
    · rcases List.mem_append.mp hp with hp | hp
      · exact .inl (.inr (.inr ⟨p, hp, hv⟩))
      · rcases (offerPhase_mem hp).2 with rfl | rfl <;> exact .inr (Option.some.inj hv).symm
  refine ⟨hvalid, fun hnone => ?_, fun v hv => ?_, fun v w hv hw =>
    ?_, fun hsaved current' hm' => ?_⟩
  · cases hm.symm.trans hnone
  · rcases hheld v hv with hv | rfl
    · exact h.clean v hv
    · exact clean_sanitizeCatalog _
  · rcases hheld v hv with hv | rfl <;> rcases hheld w hw with hw | rfl
    · exact h.agree v w hv hw
    · exact (hok v hv).symm
    · exact hok w hw
    · exact .refl _
  · obtain rfl : current = current' := by simpa [hm] using hm'
    obtain ⟨old, hold, hs⟩ := h.synced hsaved current hm
    exact ⟨old, hold, hs.offer incoming⟩

theorem Tracked.adopt (h : Tracked s) {i : ℕ} (hvalid : AllValid s')
    (hstep : DurableView.step nodeId seed s (.adopt i) = some s') : Tracked s' := by
  simp only [DurableView.step] at hstep
  split at hstep
  · next v current hi hm =>
    obtain rfl := Option.some.inj hstep
    have hmem := List.mem_of_getElem? hi
    have hv : Held s v := .inr (.inr ⟨_, hmem, rfl⟩)
    have hvok : v.validate = .ok () := h.tasks _ hmem v rfl
    have hcat := @adopt_indexCatalog current _ (sanitized_valid hvok)
    rw [sanitizeCatalog_of_clean (h.clean v hv)] at hcat
    have hnext : Derived (Held s) (ClusterMeta.adopt current v).1 := by
      refine .merge (.inl hm) hv ?_ hcat
      rw [adopt_topology (sanitized_valid hvok)]
      split
      · exact .inr rfl
      · exact .inl rfl
    have hheld (u : ClusterMetadata) (hu : Held { s with
        memory := some (ClusterMeta.adopt current v).1
        tasks := s.after i (if (ClusterMeta.adopt current v).1.indexCatalog =
          current.indexCatalog then []
          else [.persisting]) } u) : u = (ClusterMeta.adopt current v).1 ∨ Held s u := by
      rcases hu with hu | hu | ⟨p, hp, hu⟩
      · exact .inl (Option.some.inj hu).symm
      · exact .inr (.inr (.inl hu))
      · refine .inr (held_after hp hu fun p' hp' u' hu' => ?_)
        split at hp'
        · cases hp'
        · rw [List.mem_singleton.mp hp'] at hu'
          cases hu'
    refine h.of_derived hvalid (by simp) (fun u hu => ?_) (fun u hu => ?_)
      fun hsaved current' hm' => ?_
    · rcases hheld u hu with rfl | hu
      · rw [hcat]
        exact (h.clean current (.inl hm)).merge _
      · exact h.clean u hu
    · rcases hheld u hu with rfl | hu
      · exact hnext
      · exact .of hu
    · obtain rfl := Option.some.inj hm'
      obtain ⟨old, hold, hs⟩ := h.synced hsaved current hm
      exact ⟨old, hold, hs.adopt hi hvok (h.clean v hv) rfl⟩
  · cases hstep

theorem Tracked.update (h : Tracked s) {u : CatalogUpdate} (hvalid : AllValid s')
    (hok : Steady nodeId seed s (.update u))
    (hstep : DurableView.step nodeId seed s (.update u) = some s') : Tracked s' := by
  obtain ⟨current, hm, rfl⟩ := Option.map_eq_some_iff.mp hstep
  obtain ⟨hfits, hagree⟩ := hok.2 current hm
  have hheld (v : ClusterMetadata) (hv : Held { s with
      memory := some (u.applyTo nodeId current).1
      tasks := s.tasks ++ if (u.applyTo nodeId current).2 then [.persisting] else [] } v) :
      Held s v ∨ v = (u.applyTo nodeId current).1 := by
    rcases hv with hv | hv | ⟨p, hp, hv⟩
    · exact .inr (Option.some.inj hv).symm
    · exact .inl (.inr (.inl hv))
    · rcases List.mem_append.mp hp with hp | hp
      · exact .inl (.inr (.inr ⟨p, hp, hv⟩))
      · split at hp
        · rw [List.mem_singleton.mp hp] at hv
          cases hv
        · cases hp
  refine ⟨hvalid, by simp, fun v hv => ?_, fun v w hv hw => ?_, fun hsaved current' hm' => ?_⟩
  · rcases hheld v hv with hv | rfl
    · exact h.clean v hv
    · exact hfits.clean (h.clean current (.inl hm))
  · rcases hheld v hv with hv | rfl <;> rcases hheld w hw with hw | rfl
    · exact h.agree v w hv hw
    · exact (hagree v hv).symm
    · exact hagree w hw
    · exact .refl _
  · obtain rfl := Option.some.inj hm'
    obtain ⟨old, hold, hs⟩ := h.synced hsaved current hm
    exact ⟨old, hold, hs.update (.of_topology applyTo_topology) hfits.catLe applyTo_of_not_moved⟩

theorem Tracked.clone (h : Tracked s) {i : ℕ} (hvalid : AllValid s')
    (hstep : DurableView.step nodeId seed s (.clone i) = some s') : Tracked s' := by
  simp only [DurableView.step] at hstep
  split at hstep
  · next current hi hm =>
    obtain rfl := Option.some.inj hstep
    have hheld (u : ClusterMetadata) (hu :
      Held { s with tasks := s.after i [.writing current] } u) :
        Held s u := by
      rcases hu with hu | hu | ⟨p, hp, hu⟩
      · exact .inl hu
      · exact .inr (.inl hu)
      · refine held_after hp hu fun p' hp' u' hu' => ?_
        rw [List.mem_singleton.mp hp'] at hu'
        exact .inl (hm.trans hu')
    refine h.of_derived hvalid (fun hnone => ?_) (fun u hu => h.clean u (hheld u hu))
      (fun u hu => .of (hheld u hu)) fun hsaved current' hm' => ?_
    · cases hm.symm.trans hnone
    · obtain rfl : current = current' := by simpa [hm] using hm'
      obtain ⟨old, hold, hs⟩ := h.synced hsaved current hm
      exact ⟨old, hold, hs.clone hi⟩
  · cases hstep

theorem Tracked.seeded (hseed : seed.validate = .ok ()) (hclean : Clean seed.indexCatalog)
    (h : Tracked s) {o : Outcome} (hload : load s.disk = .ok none)
    (hbounds : SaveInBounds seed o s.disk)
    (hvalid : AllValid ⟨(DurableView.save seed o s.disk).1, some seed, [],
      (DurableView.save seed o s.disk).2⟩) :
    Tracked ⟨(DurableView.save seed o s.disk).1, some seed, [],
      (DurableView.save seed o s.disk).2⟩ := by
  have hnone : stored o s.disk = none := by
    cases hs : stored o s.disk with
    | none => rfl
    | some old => simpa [hload] using (stored_eq_some.mp hs).2
  have hseeded (w : ClusterMetadata) (hw : toWrite seed (stored o s.disk) = some w) : w = seed := by
    rw [hnone] at hw
    exact (Option.some.inj hw).symm
  have hread := load_save h.disk hbounds hseed hclean
  have hheld (u : ClusterMetadata)
      (hu : Held ⟨(DurableView.save seed o s.disk).1, some seed, [],
        (DurableView.save seed o s.disk).2⟩ u) :
      u = seed := by
    rcases hu with hu | hu | ⟨p, hp, -⟩
    · exact (Option.some.inj hu).symm
    · rcases hread with ⟨hsame, -⟩ | ⟨w, hto, hw⟩
      · rw [hsame, hload] at hu
        cases hu
      · rw [hw] at hu
        cases hu
        exact hseeded u hto
    · cases hp
  refine ⟨hvalid, by simp, fun u hu => hheld u hu ▸ hclean, fun u w hu hw =>
    ?_, fun hsaved current hm => ?_⟩
  · rw [hheld u hu, hheld w hw]
    exact .refl _
  · obtain rfl := Option.some.inj hm
    rcases hread with ⟨-, hto⟩ | ⟨w, hto, hw⟩
    · rw [hnone] at hto
      cases hto hsaved
    · exact ⟨_, hseeded w hto ▸ hw, .refl _⟩

theorem Tracked.boot (hseed : seed.validate = .ok ()) (hclean : Clean seed.indexCatalog)
    (h : Tracked s) {o : Outcome} (hvalid : AllValid s') (hok : Steady nodeId seed s (.boot o))
    (hstep : DurableView.step nodeId seed s (.boot o) = some s') : Tracked s' := by
  simp only [DurableView.step] at hstep
  split at hstep
  · cases hstep
  · split at hstep
    · cases hstep
    · next v hload =>
      obtain rfl := Option.some.inj hstep
      have hheld (u : ClusterMetadata) (hu : Held ⟨s.disk, some v, [], true⟩ u) : Held s u := by
        rcases hu with hu | hu | ⟨p, hp, -⟩
        · exact .inr (.inl (Option.some.inj hu ▸ hload))
        · exact .inr (.inl hu)
        · cases hp
      refine h.of_derived hvalid (by simp) (fun u hu => h.clean u (hheld u hu))
        (fun u hu => .of (hheld u hu)) fun _ current hm => ?_
      obtain rfl := Option.some.inj hm
      exact ⟨v, hload, .refl v⟩
    · next hload =>
      obtain rfl := Option.some.inj hstep
      exact h.seeded hseed hclean hload (hok hload) hvalid

theorem Tracked.step (hseed : seed.validate = .ok ()) (hclean : Clean seed.indexCatalog)
    (h : Tracked s)
    (hok : Steady nodeId seed s l) (hstep : step nodeId seed s l = some s') : Tracked s' := by
  have hvalid : AllValid s' :=
    ⟨(h.toAllValid.step_iff hseed hstep).mpr hok.inBounds, h.toAllValid.tasks_step hstep⟩
  cases l with
  | offer incoming => exact h.offer hvalid hok hstep
  | save i o =>
    simp only [DurableView.step] at hstep
    split at hstep
    · next v hi =>
      obtain rfl := Option.some.inj hstep
      exact h.save hi rfl (hok _ hi v rfl) hvalid (by simp [Phase.view?])
        fun current old new hs hw => hs.save_offered hi hw
    · next v hi =>
      obtain rfl := Option.some.inj hstep
      have hv : Held s v := .inr (.inr ⟨_, List.mem_of_getElem? hi, rfl⟩)
      exact h.save hi rfl (hok _ hi v rfl) hvalid (by simp)
        fun current old new hs hw => hs.save_copy hi hw (h.clean v hv)
    · cases hstep
  | adopt i => exact h.adopt hvalid hstep
  | update u => exact h.update hvalid hok hstep
  | clone i => exact h.clone hvalid hstep
  | crash =>
    obtain rfl := Option.some.inj hstep
    have hheld (u : ClusterMetadata) (hu : Held { s with memory := none, tasks := [] } u) :
      Held s u := by
      rcases hu with hu | hu | ⟨p, hp, -⟩
      · cases hu
      · exact .inr (.inl hu)
      · cases hp
    exact h.of_derived hvalid (fun _ => rfl) (fun u hu => h.clean u (hheld u hu))
      (fun u hu => .of (hheld u hu)) (by simp)
  | boot o => exact h.boot hseed hclean hvalid hok hstep

/-- What is stored after a steady step is what was stored before, or later. -/
theorem Tracked.forward (h : Tracked s) (hok : Steady nodeId seed s l)
    (hstep : DurableView.step nodeId seed s l = some s')
    (hv : load s.disk = .ok (some v)) :
    ∃ w, load s'.disk = .ok (some w) ∧ IdLe v w ∧ CatLe v.indexCatalog w.indexCatalog := by
  have hsave {i : ℕ} {o : Outcome} {q : Phase} {x : ClusterMetadata} (hi : s.tasks[i]? = some q)
      (hq : q.view? = some x) (hkeep : SaveKeeps x o s.disk) : ∃ w,
        load (DurableView.save x o s.disk).1 = .ok (some w) ∧
        IdLe v w ∧ CatLe v.indexCatalog w.indexCatalog := by
    have hmem := List.mem_of_getElem? hi
    exact forward_of_save h.disk hkeep (h.tasks q hmem x hq)
      (h.clean x (.inr (.inr ⟨q, hmem, hq⟩))) hv
  have hsame : ∃ w, load s.disk = .ok (some w) ∧ IdLe v w ∧ CatLe v.indexCatalog w.indexCatalog :=
    ⟨v, hv, .refl v, .refl _⟩
  cases l with
  | offer incoming =>
    obtain ⟨current, -, rfl⟩ := Option.map_eq_some_iff.mp hstep
    exact hsame
  | save i o =>
    simp only [DurableView.step] at hstep
    split at hstep
    · next x hi =>
      obtain rfl := Option.some.inj hstep
      exact hsave hi rfl (hok _ hi x rfl)
    · next x hi =>
      obtain rfl := Option.some.inj hstep
      exact hsave hi rfl (hok _ hi x rfl)
    · cases hstep
  | adopt i =>
    simp only [DurableView.step] at hstep
    split at hstep
    · obtain rfl := Option.some.inj hstep
      exact hsame
    · cases hstep
  | update u =>
    obtain ⟨current, -, rfl⟩ := Option.map_eq_some_iff.mp hstep
    exact hsame
  | clone i =>
    simp only [DurableView.step] at hstep
    split at hstep
    · obtain rfl := Option.some.inj hstep
      exact hsame
    · cases hstep
  | crash =>
    obtain rfl := Option.some.inj hstep
    exact hsame
  | boot o =>
    simp only [DurableView.step] at hstep
    split at hstep
    · cases hstep
    · split at hstep
      · cases hstep
      · obtain rfl := Option.some.inj hstep
        exact hsame
      · next hload => cases hload.symm.trans hv

theorem Tracked.of_down {d : Disk} {saved : Bool} (hd : DiskValid d) : Tracked
    ⟨d, none, [], saved⟩ where
  memory := by simp
  disk := hd
  tasks := by simp
  down _ := rfl
  clean v hv := by
    rcases hv with hv | hv | ⟨p, hp, -⟩
    · cases hv
    · exact (load_spec hv).2
    · cases hp
  agree v w hv hw := by
    rcases hv with hv | hv | ⟨p, hp, -⟩
    · cases hv
    · rcases hw with hw | hw | ⟨p, hp, -⟩
      · cases hw
      · obtain rfl : v = w := by simpa using hv.symm.trans hw
        exact .refl v
      · cases hp
    · cases hp
  synced := by simp

/-- Throughout a steady run, with saves that fail and crashes, the stored view's id never goes back
and every entry that is stored stays or is replaced by a newer one. When no call is left and no save
has failed since the start, the stored view is the one in memory. -/
theorem durable_view_forward {d : Disk} {saved : Bool} {ls : List Label}
    (hseed : seed.validate = .ok ()) (hempty : seed.indexCatalog = ∅) (hd : DiskValid d)
    (hrun : run (step nodeId seed) ⟨d, none, [], saved⟩ ls = some s')
    (hsteady : Meets (step nodeId seed) (Steady nodeId seed) ⟨d, none, [], saved⟩ ls) :
    (∀ k t v, run (step nodeId seed) ⟨d, none, [], saved⟩ (ls.take k) = some t →
      load t.disk = .ok (some v) →
      ∃ w, load s'.disk = .ok (some w) ∧ IdLe v w ∧ CatLe v.indexCatalog w.indexCatalog) ∧
      (s'.tasks = [] → s'.saved = true → ∀ current ∈ s'.memory,
        load s'.disk = .ok (some current)) := by
  have hclean : Clean seed.indexCatalog := fun k e he => by simp [hempty] at he
  have hstep : ∀ t l t', Tracked t → Steady nodeId seed t l →
    step nodeId seed t l = some t' → Tracked t' :=
    fun _ _ _ h hok hs => h.step hseed hclean hok hs
  constructor
  · intro k t v ht hv
    rw [← List.take_append_drop k ls] at hrun hsteady
    obtain ⟨t', ht', hrest⟩ := run_append.mp hrun
    obtain rfl : t = t' := Option.some.inj (ht.symm.trans ht')
    have hsuffix := meets_of_append hsteady ht
    have hprefix : Meets (step nodeId seed) (Steady nodeId seed) ⟨d, none, [], saved⟩ (ls.take k) :=
      meets_prefix hsteady
    have htracked : Tracked t := run_invariant_of_meets hstep ht hprefix (.of_down hd)
    -- the rest of the run keeps a stored view that is as late as `v`
    have hlater := run_invariant_of_meets
      (I := fun u => Tracked u ∧ ∃ w, load u.disk = .ok (some w) ∧ IdLe v w ∧
        CatLe v.indexCatalog w.indexCatalog)
      (fun u l u' hu hok hs => ?_) hrest hsuffix ⟨htracked, v, hv, .refl v, .refl _⟩
    · exact hlater.2
    · obtain ⟨hu, w, hw, hid, hcat⟩ := hu
      obtain ⟨w', hw', hid', hcat'⟩ := hu.forward hok hs hw
      exact ⟨hstep u l u' hu hok hs, w', hw', hid.trans hid', hcat.trans hcat'⟩
  · intro hidle hsaved current hm
    have htracked : Tracked s' := run_invariant_of_meets hstep hrun hsteady (.of_down hd)
    obtain ⟨old, hold, hs⟩ := htracked.synced hsaved current hm
    rw [hidle] at hs
    rw [hold, hs.eq (htracked.agree old current (.inr (.inl hold)) (.inl hm))]

end Run

section Loss

/-- A stored view with a TTL for `users`, and the next version from a node that has not heard of it.
-/
def storedView : ClusterMetadata :=
  ⟨2, ['n'], false, [], [], none, none, (∅ : IndexCatalog).insert "users".toList timed⟩

def laterView : ClusterMetadata := ⟨3, ['m'], false, [], [], none, none, ∅⟩

/-- The later view is saved as it is, and as memory gains no entry from it, nothing is saved
afterwards. -/
theorem durable_view_forward_fails : ¬ ∀ (s' : State) (ls : List Label),
    run (step ['n'] bare) ⟨⟨some (.whole storedView), none⟩, none, [], true⟩ ls = some s' →
      s'.tasks = [] → s'.saved = true → ∀ current ∈ s'.memory,
        load s'.disk = .ok (some current) := by
  intro h
  have hlost : (run (step ['n'] bare) ⟨⟨some (.whole storedView), none⟩, none, [], true⟩
      [.boot ⟨true, none⟩, .offer laterView, .save 0 ⟨true, none⟩, .adopt 0]).any (fun s' =>
        s'.tasks.isEmpty && s'.saved && s'.memory.any fun v =>
          load s'.disk ≠ .ok (some v)) = true := by
    decide +kernel
  obtain ⟨s', hrun, hbad⟩ := (Option.any_eq_true _ _).mp hlost
  simp only [Bool.and_eq_true, List.isEmpty_iff] at hbad
  obtain ⟨⟨hidle, hsaved⟩, hne⟩ := hbad
  obtain ⟨v, hv, hne⟩ := (Option.any_eq_true _ _).mp hne
  exact of_decide_eq_true hne (h s' _ hrun hidle hsaved v hv)

end Loss

section Decide

theorem forall_entries {a : IndexCatalog} {P : CollectionName → CollectionIndexes → Prop} :
    (∀ x ∈ a.toList, P x.1 x.2) ↔ ∀ k e, a[k]? = some e → P k e :=
  ⟨fun h k e he => h (k, e) (ExtTreeMap.mem_toList_iff_getElem?_eq_some.mpr he),
    fun h x hx => h x.1 x.2 (ExtTreeMap.mem_toList_iff_getElem?_eq_some.mp hx)⟩

theorem toOption_join_load {d : Disk} {v : ClusterMetadata} :
    (load d).toOption.join = some v ↔ load d = .ok (some v) := by
  cases load d with
  | error e => simp [Except.toOption]
  | ok r => cases r <;> simp [Except.toOption]

def holding (s : State) : List ClusterMetadata :=
  s.memory.toList ++ ((load s.disk).toOption.join.toList ++ s.tasks.filterMap Phase.view?)

theorem mem_holding {s : State} {v : ClusterMetadata} : v ∈ holding s ↔ Held s v := by
  rw [holding, List.mem_append, List.mem_append, Option.mem_toList, Option.mem_toList,
    List.mem_filterMap, toOption_join_load]
  rfl

instance (a b : IndexCatalog) : Decidable (CatLe a b) :=
  decidable_of_iff (∀ x ∈ a.toList, ∃ f ∈ b[x.1]?, x.2.stamp ≤ f.stamp)
    (forall_entries (P := fun k e => ∃ f ∈ b[k]?, e.stamp ≤ f.stamp))

instance (v w : ClusterMetadata) : Decidable (Agree v w) :=
  decidable_of_iff ((SameId v w → v.topology = w.topology) ∧ ∀ x ∈ v.indexCatalog.toList,
      ∀ f ∈ w.indexCatalog[x.1]?, x.2.stamp = f.stamp → x.2 = f)
    ⟨fun h => ⟨h.1, fun k e f he hf => forall_entries
        (P := fun k e => ∀ f ∈ w.indexCatalog[k]?, e.stamp = f.stamp →
          e = f) |>.mp h.2 k e he f hf⟩,
      fun h => ⟨h.topology, forall_entries
        (P := fun k e => ∀ f ∈ w.indexCatalog[k]?, e.stamp = f.stamp → e = f) |>.mpr
          fun k e he f hf => h.entries k e f he hf⟩⟩

instance (v : ClusterMetadata) (o : Outcome) (d : Disk) : Decidable (SaveKeeps v o d) :=
  decidable_of_iff (SaveInBounds v o d ∧ ∀ old ∈ (load d).toOption.join,
      (o.readable = true → v.supersedes old = true) →
        IdLe old v ∧ CatLe old.indexCatalog v.indexCatalog)
    ⟨fun h => ⟨h.1, fun old hold => h.2 old (toOption_join_load.mpr hold)⟩,
      fun h => ⟨h.toSaveInBounds, fun old hold => h.onto old (toOption_join_load.mp hold)⟩⟩

instance (nodeId : NodeId) (v : ClusterMetadata) (u : CatalogUpdate) : Decidable
    (u.Fits nodeId v) :=
  decidable_of_iff ((∀ c ∈ u.collection?, ∀ e ∈ v.indexCatalog[c]?, e.version + 1 < 2 ^ 64) ∧
      ∀ c ∈ u.collection?, ∀ e ∈ (u.applyTo nodeId v).1.indexCatalog[c]?, addressable c e = true)
    ⟨fun h => ⟨h.1, h.2⟩, fun h => ⟨h.version, h.addressable⟩⟩

instance (nodeId : NodeId) (seed : ClusterMetadata) (s : State) : ∀ l, Decidable
    (Steady nodeId seed s l)
  | .offer incoming => decidable_of_iff (∀ w ∈ holding s, Agree incoming.sanitized w)
      (forall_congr' fun _ => imp_congr_left mem_holding)
  | .save i o => inferInstanceAs
      (Decidable (∀ p ∈ s.tasks[i]?, ∀ v ∈ p.toSave?, SaveKeeps v o s.disk))
  | .update u => decidable_of_iff (InBounds seed s (.update u) ∧ ∀ current ∈ s.memory,
      u.Fits nodeId current ∧
        ∀ w ∈ holding s, Agree (u.applyTo nodeId current).1 w)
      (and_congr_right' (forall₂_congr fun _ _ =>
        and_congr_right' (forall_congr' fun _ => imp_congr_left mem_holding)))
  | .adopt i => inferInstanceAs (Decidable (InBounds seed s (.adopt i)))
  | .clone i => inferInstanceAs (Decidable (InBounds seed s (.clone i)))
  | .crash => inferInstanceAs (Decidable (InBounds seed s .crash))
  | .boot o => inferInstanceAs (Decidable (InBounds seed s (.boot o)))

/-- A node that starts without files, records and saves a TTL, takes a view and a catalogue, and is
restarted. -/
theorem durable_view_forward_bare : ∃ s', run (step ['n'] bare)
    ⟨⟨none, none⟩, none, [], true⟩ ttlLabels = some s' ∧
    ∀ current ∈ s'.memory, load s'.disk = .ok (some current) := by
  have hd : DiskValid ⟨none, none⟩ := ⟨by simp, by simp, by simp⟩
  have hidle : (run (step ['n'] bare) ⟨⟨none, none⟩, none, [], true⟩ ttlLabels).any
      (fun s' => s'.tasks.isEmpty && s'.saved) = true := by decide +kernel
  obtain ⟨s', hrun, hend⟩ := (Option.any_eq_true _ _).mp hidle
  simp only [Bool.and_eq_true, List.isEmpty_iff] at hend
  have hsteady : Meets (step ['n'] bare) (Steady ['n'] bare)
    ⟨⟨none, none⟩, none, [], true⟩ ttlLabels := by
    decide +kernel
  exact ⟨s', hrun, (durable_view_forward (by decide) rfl hd hrun hsteady).2 hend.1 hend.2⟩

end Decide

end DewDB.DurableView
