import DewDB.ReplicationCommits
import DewDB.Streaming

/-!
# Orderly runs of writes and senders

While every step keeps to one leadership, the frames of a write and of a sender are those of the
leader of its term, and what a sender acknowledges is a position that the replica held in that term.
The protocol with tasks is then simulated by the machine of replicated logs as the protocol is.
-/
namespace DewDB.StreamingInv

open TransitionSystem Endpoint Vote CollectionLog LeaderProgress ReplicaNode Replication
  ReplicationSim
open Streaming hiding State step
open LogReplication hiding Initial State Step

variable {ι β : Type} {g : Cluster ι} {a a' : Machine ι β} {s s' : Streaming.State ι β} {i : ι}
  {w : World ι β}

def appendedFrame : Stage β → Option (Frame β)
  | .sampled => none
  | .appended frame => some frame
  | .noted frame => some frame

structure WriterOk (a : Machine ι β) (w : World ι β) (wr : LocalWrite ι β) : Prop where
  leading : leaderTerm (w.nodes wr.node) = some wr.term
  frame : ∀ f ∈ appendedFrame wr.stage, f ∈ a.leaderLog wr.term wr.collection ∧ f.term = wr.term

/-- Frames to send under a term: a run of its leader's log, at or above what was reached. -/
structure Backed (a : Machine ι β) (t : ℕ) (c : CollectionName) (commitIndex : ℕ)
    (fs : List (Frame β)) (prev : ℕ) : Prop where
  leader : (a.leader t).isSome
  run : ∃ pre, pre ++ fs <+: a.leaderLog t c
  commit : CommitKnown a t c commitIndex
  above : ∀ f ∈ fs, prev ≤ f.lsn

def SenderOk (a : Machine ι β) (sd : Sender ι β) : Prop :=
  match sd.sending with
  | .read frames => frames ≠ [] ∧ ∀ f ∈ frames, sd.prev ≤ f.lsn
  | .ready t commitIndex rest => Backed a t sd.collection commitIndex rest sd.prev
  | .waiting t commitIndex batch rest =>
    batch ≠ [] ∧ Backed a t sd.collection commitIndex (batch ++ rest) sd.prev

structure StreamSim (g : Cluster ι) (a : Machine ι β) (s : Streaming.State ι β) : Prop where
  sim : Sim g a s.world
  writers : ∀ wr ∈ s.writers, WriterOk a s.world wr
  senders : ∀ sd ∈ s.senders, SenderOk a sd
  replies : ∀ rp ∈ s.replies, ReplyOk a rp.node rp.request rp.reply
  appended : ∀ x ∈ s.appended, x.leading = some x.frame.term

section Monotone

theorem leaderTerm_eq_some {n : Node β} {t : ℕ} :
    leaderTerm n = some t ↔ n.isLeader = true ∧ n.term = t := by
  cases h : n.isLeader <;> simp [leaderTerm, h]

theorem WriterOk.elsewhere {w' : World ι β} {wr : LocalWrite ι β} (h : WriterOk a w wr)
    (he : Elsewhere a a' i)
    (hlead : leaderTerm (w'.nodes wr.node) = leaderTerm (w.nodes wr.node)) : WriterOk a' w' wr :=
  ⟨hlead.trans h.leading, fun f hf => ⟨(he.grows _ _).subset (h.frame f hf).1, (h.frame f hf).2⟩⟩

theorem Backed.elsewhere {t m prev : ℕ} {c : CollectionName} {fs : List (Frame β)}
    (h : Backed a t c m fs prev) (he : Elsewhere a a' i) : Backed a' t c m fs prev where
  leader := he.isSome h.leader
  run := h.run.imp fun _ hp => hp.trans (he.grows _ _)
  commit := h.commit.elsewhere he
  above := h.above

theorem SenderOk.elsewhere {sd : Sender ι β} (h : SenderOk a sd) (he : Elsewhere a a' i) :
    SenderOk a' sd := by
  unfold SenderOk at h ⊢
  split
  next frames heq => simpa [heq] using h
  next t m rest heq =>
    rw [heq] at h
    exact Backed.elsewhere h he
  next t m batch rest heq =>
    rw [heq] at h
    exact ⟨h.1, h.2.elsewhere he⟩

theorem StreamSim.advance (h : StreamSim g a s) (he : Elsewhere a a' i) (hsim : Sim g a' s'.world)
    (hwriters : ∀ wr ∈ s'.writers, wr ∈ s.writers ∨ WriterOk a' s'.world wr)
    (hlead : ∀ wr ∈ s'.writers,
      leaderTerm (s'.world.nodes wr.node) = leaderTerm (s.world.nodes wr.node))
    (hsenders : ∀ sd ∈ s'.senders, sd ∈ s.senders ∨ SenderOk a' sd)
    (hreplies : ∀ rp ∈ s'.replies, rp ∈ s.replies ∨ ReplyOk a' rp.node rp.request rp.reply)
    (happended : ∀ x ∈ s'.appended, x ∈ s.appended ∨ x.leading = some x.frame.term) :
    StreamSim g a' s' where
  sim := hsim
  writers wr hwr := by
    rcases hwriters wr hwr with hold | hnew
    · exact (h.writers wr hold).elsewhere he (hlead wr hwr)
    · exact hnew
  senders sd hsd := by
    rcases hsenders sd hsd with hold | hnew
    · exact (h.senders sd hold).elsewhere he
    · exact hnew
  replies rp hrp := by
    rcases hreplies rp hrp with hold | hnew
    · exact (h.replies rp hold).elsewhere he
    · exact hnew
  appended x hx := by
    rcases happended x hx with hold | hnew
    · exact h.appended x hold
    · exact hnew

end Monotone

section Writes

variable {k : ℕ} {c : CollectionName}

theorem beginWrite_ok {entry : β} (h : StreamSim g a s)
    (hs : stepBeginWrite s i c entry = some s') : ∃ a', StreamSim g a' s' := by
  obtain ⟨t, ht, rfl⟩ := Option.map_eq_some_iff.mp hs
  refine ⟨a, h.advance (Elsewhere.refl a i) h.sim (fun wr hwr => ?_) (fun _ _ => rfl)
    (fun _ => .inl) (fun _ => .inl) fun _ => .inl⟩
  rcases List.mem_cons.mp hwr with rfl | hwr
  · exact .inr ⟨ht, fun f hf => by simp [appendedFrame] at hf⟩
  · exact .inl hwr

theorem appendWrite_ok [DecidableEq ι] (h : StreamSim g a s) (hs : stepAppendWrite s k = some s')
    (hlead : ∀ wr ∈ s'.writers,
      leaderTerm (s'.world.nodes wr.node) = leaderTerm (s.world.nodes wr.node)) :
    ∃ a', StreamSim g a' s' := by
  unfold stepAppendWrite at hs
  split at hs
  next wr hwr =>
    split at hs
    next hstage =>
      obtain rfl := Option.some.inj hs
      have hok := h.writers wr (List.mem_of_getElem? hwr)
      obtain ⟨hl, ht⟩ := leaderTerm_eq_some.mp hok.leading
      obtain ⟨a', he, hsim', hmem⟩ := sim_appendNode (c := wr.collection) h.sim hl wr.entry
      rw [ht] at hsim' hmem
      refine ⟨a', h.advance he hsim' (fun x hx => ?_) hlead (fun _ => .inl) (fun _ => .inl)
        fun x hx => ?_⟩
      · rcases List.mem_or_eq_of_mem_set hx with hx | rfl
        · exact .inl hx
        · refine .inr ⟨(hlead _ hx).trans hok.leading, fun f hf => ?_⟩
          obtain rfl : _ = f := by simpa [appendedFrame] using hf
          exact ⟨hmem, rfl⟩
      · rcases List.mem_cons.mp hx with rfl | hx
        · exact .inr hok.leading
        · exact .inl hx
    next => simp at hs
  next => simp at hs

theorem noteWrite_ok [DecidableEq ι] (h : StreamSim g a s) (hs : stepNoteWrite s k = some s')
    (hlead : ∀ wr ∈ s'.writers,
      leaderTerm (s'.world.nodes wr.node) = leaderTerm (s.world.nodes wr.node)) :
    ∃ a', StreamSim g a' s' := by
  unfold stepNoteWrite at hs
  split at hs
  next wr hwr =>
    split at hs
    next f hstage =>
      obtain rfl := Option.some.inj hs
      have hok := h.writers wr (List.mem_of_getElem? hwr)
      obtain ⟨hl, ht⟩ := leaderTerm_eq_some.mp hok.leading
      obtain ⟨hf, hft⟩ := hok.frame f (by simp [hstage, appendedFrame])
      have hsim' := sim_noteNode (c := wr.collection) h.sim hl ⟨f, ht ▸ hf, hft.trans ht.symm, rfl⟩
      refine ⟨a, h.advance (Elsewhere.refl a wr.node) hsim' (fun x hx => ?_) hlead (fun _ => .inl)
        (fun _ => .inl) fun _ => .inl⟩
      rcases List.mem_or_eq_of_mem_set hx with hx | rfl
      · exact .inl hx
      · refine .inr ⟨(hlead _ hx).trans hok.leading, fun e he => ?_⟩
        obtain rfl : f = e := by simpa [appendedFrame] using he
        exact ⟨hf, hft⟩
    next => simp at hs
  next => simp at hs

theorem ship_ok {peer : Url} (h : StreamSim g a s) (hs : stepShip s k peer = some s') :
    ∃ a', StreamSim g a' s' := by
  unfold stepShip at hs
  split at hs
  next wr hwr =>
    split at hs
    next f hstage =>
      obtain rfl := Option.some.inj hs
      have hok := h.writers wr (List.mem_of_getElem? hwr)
      have hk := h.sim.nodes wr.node
      obtain ⟨hl, ht⟩ := leaderTerm_eq_some.mp hok.leading
      obtain ⟨hf, -⟩ := hok.frame f (by simp [hstage, appendedFrame])
      refine ⟨a, h.advance (Elsewhere.refl a wr.node) h.sim (fun _ => .inl) (fun _ _ => rfl)
        (fun sd hsd => ?_) (fun _ => .inl) fun _ => .inl⟩
      rcases List.mem_cons.mp hsd with rfl | hsd
      · have hleader := hk.leader hl
        have hcommit := (hk.progress hl).committed wr.collection
        rw [ht] at hleader hcommit
        exact .inr ⟨by simp [hleader], exists_isPrefix_of_mem hf, hcommit, fun _ _ => Nat.zero_le _⟩
      · exact .inl hsd
    next => simp at hs
  next => simp at hs

end Writes

section Senders

variable {k : ℕ} {c : CollectionName}

theorem chainPrefix_isPrefix (lsn term : ℕ) (fs : List (Frame β)) :
    chainPrefix lsn term fs <+: fs := by
  induction fs generalizing lsn term with
  | nil => exact List.prefix_rfl
  | cons f fs ih =>
    simp only [chainPrefix]
    split_ifs
    · exact List.cons_prefix_cons.mpr ⟨rfl, ih f.lsn f.term⟩
    · exact List.nil_prefix

theorem streamFrames_spec {col : Collection β} {reported : ℕ} {reportedTerm : Option ℕ}
    {frames : List (Frame β)} (h : streamFrames col reported reportedTerm = some frames) :
    frames ≠ [] ∧ ∀ f ∈ frames, reported ≤ f.lsn := by
  unfold streamFrames at h
  dsimp only at h
  split_ifs at h with htarget hreach
  obtain rfl := Option.some.inj h
  refine ⟨hreach.1, fun f hf => ?_⟩
  have := List.of_mem_filter ((chainPrefix_isPrefix _ _ _).subset hf)
  simp only [decide_eq_true_eq] at this
  omega

theorem readStream_ok {peer : Url} {reported : ℕ} {reportedTerm : Option ℕ} (h : StreamSim g a s)
    (hs : stepReadStream s i peer c reported reportedTerm = some s') : ∃ a', StreamSim g a' s' := by
  obtain ⟨frames, hframes, rfl⟩ := Option.map_eq_some_iff.mp hs
  refine ⟨a, h.advance (Elsewhere.refl a i) h.sim (fun _ => .inl) (fun _ _ => rfl)
    (fun sd hsd => ?_) (fun _ => .inl) fun _ => .inl⟩
  rcases List.mem_cons.mp hsd with rfl | hsd
  · exact .inr (streamFrames_spec hframes)
  · exact .inl hsd

theorem readTail_ok {peer : Url} (h : StreamSim g a s) (hs : stepReadTail s i peer c = some s') :
    ∃ a', StreamSim g a' s' := by
  obtain ⟨f, -, rfl⟩ := Option.map_eq_some_iff.mp hs
  refine ⟨a, h.advance (Elsewhere.refl a i) h.sim (fun _ => .inl) (fun _ _ => rfl)
    (fun sd hsd => ?_) (fun _ => .inl) fun _ => .inl⟩
  rcases List.mem_cons.mp hsd with rfl | hsd
  · exact .inr ⟨by simp, fun _ _ => Nat.zero_le _⟩
  · exact .inl hsd

theorem sampleTerm_ok (h : StreamSim g a s) (hs : stepSampleTerm s k = some s')
    (hruns : ∀ sd ∈ s.senders[k]?, LeadsRun s sd) : ∃ a', StreamSim g a' s' := by
  unfold stepSampleTerm at hs
  split at hs
  next sd hsd =>
    split at hs
    next frames hread =>
      obtain rfl := Option.some.inj hs
      have hk := h.sim.nodes sd.node
      have hok := h.senders sd (List.mem_of_getElem? hsd)
      simp only [SenderOk, hread] at hok
      obtain ⟨hl, pre, post, hlog⟩ := hruns sd hsd frames (by simp [hread, Sending.unsent])
      refine ⟨a, h.advance (Elsewhere.refl a sd.node) h.sim (fun _ => .inl) (fun _ _ => rfl)
        (fun x hx => ?_) (fun _ => .inl) fun _ => .inl⟩
      rcases List.mem_or_eq_of_mem_set hx with hx | rfl
      · exact .inl hx
      · refine .inr ⟨by simp [hk.leader hl], ⟨pre, ?_⟩, (hk.progress hl).committed _, hok.2⟩
        rw [h.sim.leaderLog_eq hl, ← hlog]
        exact List.prefix_append _ _
    next => simp at hs
  next => simp at hs

theorem sendBatch_ok {count : ℕ} (h : StreamSim g a s) (hs : stepSendBatch s k count = some s') :
    ∃ a', StreamSim g a' s' := by
  unfold stepSendBatch at hs
  split at hs
  next sd hsd =>
    split at hs
    next t commitIndex rest hready =>
      split_ifs at hs with hguard
      obtain rfl := Option.some.inj hs
      have hok := h.senders sd (List.mem_of_getElem? hsd)
      simp only [SenderOk, hready] at hok
      obtain ⟨pre, hpre⟩ := hok.run
      have hsim' : Sim g a { s.world with
          messages := ⟨t, sd.collection, rest.take count, commitIndex⟩ :: s.world.messages } := by
        refine h.sim.records_only rfl { h.sim.records with messages := fun m hm => ?_ }
        rcases List.mem_cons.mp hm with rfl | hm
        · refine ⟨hok.leader, ⟨pre, ?_⟩, hok.commit⟩
          exact ((List.prefix_append_right_inj pre).mpr (List.take_prefix _ _)).trans hpre
        · exact h.sim.records.messages m hm
      refine ⟨a, h.advance (Elsewhere.refl a sd.node) hsim' (fun _ => .inl) (fun _ _ => rfl)
        (fun x hx => ?_) (fun _ => .inl) fun _ => .inl⟩
      rcases List.mem_or_eq_of_mem_set hx with hx | rfl
      · exact .inl hx
      · refine .inr ⟨?_, ?_⟩
        · have : 0 < rest.length := List.length_pos_iff.mpr hguard.2
          exact List.length_pos_iff.mp (by rw [List.length_take]; omega)
        · rw [List.take_append_drop]
          exact hok
    next => simp at hs
  next => simp at hs

theorem deliver_ok [DecidableEq ι] {message durable : ℕ} (h : StreamSim g a s)
    (hs : Streaming.stepDeliver s i message durable = some s')
    (hlead : ∀ wr ∈ s'.writers,
      leaderTerm (s'.world.nodes wr.node) = leaderTerm (s.world.nodes wr.node)) :
    ∃ a', StreamSim g a' s' := by
  unfold Streaming.stepDeliver at hs
  split at hs
  next req hreq =>
    obtain ⟨w, hw, rfl⟩ := Option.map_eq_some_iff.mp hs
    obtain ⟨a', he, hsim', hreply⟩ := sim_deliver h.sim hw
    refine ⟨a', h.advance he hsim' (fun _ => .inl) hlead (fun _ => .inl) (fun rp hrp => ?_)
      fun _ => .inl⟩
    rcases List.mem_cons.mp hrp with rfl | hrp
    · exact .inr (hreply req hreq)
    · exact .inl hrp
  next => simp at hs

/-- What a sender counts of a success is the LSN of a frame of the batch. -/
theorem counted_mem {kind : SenderKind} {batch : List (Frame β)} {lsn : ℕ} (hwf : WellFormed batch)
    (hne : batch ≠ []) (hlsn : (∃ f ∈ batch, f.lsn = lsn) ∨ lsnOf batch ≤ lsn)
    (hstream : kind = .stream → lsn ≤ lsnOf batch) :
    ∃ f ∈ batch, f.lsn = kind.counted lsn (lsnOf batch) := by
  obtain ⟨p, x, rfl⟩ := (List.eq_nil_or_concat' batch).resolve_left hne
  rw [lsnOf_concat] at hlsn hstream ⊢
  have hlast : ∃ f ∈ p ++ [x], f.lsn = x.lsn := ⟨x, by simp, rfl⟩
  cases kind with
  | frame => exact hlast
  | stream =>
    rcases hlsn with hf | hle
    · exact hf
    · rw [show SenderKind.stream.counted lsn x.lsn = x.lsn from le_antisymm (hstream rfl) hle]
      exact hlast
  | confirm =>
    rcases hlsn with ⟨f, hf, rfl⟩ | hle
    · have : f.lsn ≤ x.lsn := (hwf.le_last hf).2
      exact ⟨f, hf, (Nat.min_eq_left this).symm⟩
    · rw [show SenderKind.confirm.counted lsn x.lsn = x.lsn from Nat.min_eq_right hle]
      exact hlast

theorem shared_of_mem {A B pre fs : List (Frame β)} (hA : pre ++ fs <+: A) (hB : pre ++ fs <+: B)
    {f : Frame β} (hf : f ∈ fs) : Shared A B f.lsn := by
  obtain ⟨u, v, rfl⟩ := List.append_of_mem hf
  have hp : (pre ++ u) ++ [f] <+: pre ++ (u ++ f :: v) := ⟨v, by simp⟩
  exact ⟨pre ++ u, f, hp.trans hA, hp.trans hB, rfl⟩

/-- `note_ack` at a node that leads the term of the request, or does not lead. -/
theorem noteAck_ok [DecidableEq ι] {c : CollectionName} (hsim : Sim g a w) {t lsn durable : ℕ}
    {voter : ι} {peer : Url} (hpeer : sameEndpoint peer (g.url voter) = true)
    (hack : ∃ h ∈ a.held, h.node = voter ∧ h.term = t ∧ Shared (h.logs c) (a.leaderLog t c) lsn)
    (hdurable : (w.nodes i).Durable c durable) (hterm : ∀ u ∈ leaderTerm (w.nodes i), u = t) :
    ∃ a', Elsewhere a a' i ∧ Sim g a' (Streaming.noteAck g w i peer c lsn t durable) := by
  have hk := hsim.nodes i
  unfold Streaming.noteAck
  by_cases hl : (w.nodes i).isLeader = true
  · obtain rfl : (w.nodes i).term = t := hterm _ (leaderTerm_eq_some.mpr ⟨hl, rfl⟩)
    simpa [hl] using sim_noteAck hsim hl hpeer hack hdurable
  · have hf : (w.nodes i).isLeader = false := by simpa using hl
    have hnode : (w.nodes i).noteAck g.toNodeGroup i peer c lsn t durable =
        { w.nodes i with progress := (w.nodes i).progress.observeAck peer c lsn } := by
      have h0 := hk.idle hf c
      simp [Node.noteAck, Node.applyCommitted, Progress.observeAck, hf, h0]
    refine ⟨a, Elsewhere.refl a i, ?_⟩
    dsimp only
    rw [if_neg hl, hnode]
    exact sim_publish (sim_role hsim (hk.role _ ⟨rfl, rfl, rfl, rfl, rfl⟩ rfl rfl
      (fun hl' => absurd hl' hl) (fun _ => hk.idle hf) hk.campaign))

theorem reply_ok [DecidableEq ι] [DecidableEq β] {r durable : ℕ} (h : StreamSim g a s)
    (hs : stepReply g s k r durable = some s')
    (hbatch : ∀ sd ∈ s.senders[k]?, ∀ rp ∈ s.replies[r]?, InBatch s sd rp)
    (hlead : ∀ wr ∈ s'.writers,
      leaderTerm (s'.world.nodes wr.node) = leaderTerm (s.world.nodes wr.node)) :
    ∃ a', StreamSim g a' s' := by
  unfold stepReply at hs
  split at hs
  next sd rp hsd hrp =>
    split at hs
    next t commitIndex batch rest hwaiting =>
      split at hs
      next hguard =>
        obtain ⟨hreq, hpeer, hdurable⟩ := hguard
        have herase : ∀ x ∈ s.senders.eraseIdx k, x ∈ s.senders := fun x hx =>
          List.mem_of_mem_eraseIdx hx
        split at hs
        next =>
          obtain rfl := Option.some.inj hs
          exact ⟨a, h.advance (Elsewhere.refl a sd.node) h.sim (fun _ => .inl) hlead
            (fun x hx => .inl (herase x hx)) (fun _ => .inl) fun _ => .inl⟩
        next lsn hlsn =>
          have hok := h.senders sd (List.mem_of_getElem? hsd)
          simp only [SenderOk, hwaiting] at hok
          obtain ⟨hne, hback⟩ := hok
          obtain ⟨hclamp, hterm⟩ :=
            hbatch sd hsd rp hrp (t, batch) (by simp [hwaiting, Sending.inFlight])
          have hrok := h.replies rp (List.mem_of_getElem? hrp)
          rw [hreq] at hrok
          obtain ⟨⟨snap, hsnap, hnode, hst, pre, hin, hinl⟩, hpos⟩ := hrok lsn hlsn hne
          have hwf : WellFormed (batch ++ rest) := by
            obtain ⟨pre', hpre'⟩ := hback.run
            exact ((h.sim.inv.leadOk t sd.collection).wellFormed.of_isPrefix hpre').sublist
              (List.sublist_append_right _ _)
          obtain ⟨f, hf, hfl⟩ := counted_mem (hwf.of_isPrefix (List.prefix_append _ _)) hne hpos
            fun hkind => hclamp hkind lsn hlsn
          -- What was reached before lies below the batch, so the batch's own frame counts.
          have hprev : max sd.prev (sd.kind.counted lsn (lsnOf batch)) = f.lsn := by
            rw [← hfl]
            exact Nat.max_eq_right (hback.above f (List.mem_append_left _ hf))
          dsimp only at hs
          rw [hprev] at hs
          split at hs
          next =>
            obtain rfl := Option.some.inj hs
            obtain ⟨a', he, hsim'⟩ := noteAck_ok (i := sd.node) h.sim hpeer
              ⟨snap, hsnap, hnode, hst, shared_of_mem hin hinl hf⟩ hdurable hterm
            exact ⟨a', h.advance he hsim' (fun _ => .inl) hlead (fun x hx => .inl (herase x hx))
              (fun _ => .inl) fun _ => .inl⟩
          next =>
            obtain rfl := Option.some.inj hs
            refine ⟨a, h.advance (Elsewhere.refl a sd.node) h.sim (fun _ => .inl) hlead
              (fun x hx => ?_) (fun _ => .inl) fun _ => .inl⟩
            rcases List.mem_or_eq_of_mem_set hx with hx | rfl
            · exact .inl hx
            · refine .inr ⟨hback.leader, ?_, hback.commit, fun e he => ?_⟩
              · obtain ⟨pre', hpre'⟩ := hback.run
                exact ⟨pre' ++ batch, by rwa [List.append_assoc]⟩
              · exact ((List.pairwise_append.mp hwf).2.2 f hf e he).1.le
      next => simp at hs
    next => simp at hs
  next => simp at hs

end Senders

section Runs

variable [DecidableEq ι] [DecidableEq β]

theorem base_ok {label : Label ι β} (h : StreamSim g a s) (hs : stepBase g s label = some s')
    (hlead : ∀ wr ∈ s'.writers,
      leaderTerm (s'.world.nodes wr.node) = leaderTerm (s.world.nodes wr.node)) :
    ∃ a', StreamSim g a' s' := by
  unfold stepBase at hs
  split_ifs at hs with hbase
  obtain ⟨w, hw, rfl⟩ := Option.map_eq_some_iff.mp hs
  obtain ⟨a', i, he, hsim'⟩ := sim_step h.sim hw
  exact ⟨a', h.advance he hsim' (fun wr hwr => .inl (List.mem_of_mem_filter hwr)) hlead
    (fun sd hsd => .inl (List.mem_of_mem_filter hsd)) (fun _ => .inl) fun _ => .inl⟩

theorem streamSim_step {task : Task ι β} (h : StreamSim g a s) (hok : Orderly g s task)
    (hs : Streaming.step g s task = some s') : ∃ a', StreamSim g a' s' := by
  have hlead := hok.undisturbed s' hs
  cases task with
  | base label => exact base_ok h hs hlead
  | beginWrite i c entry => exact beginWrite_ok h hs
  | appendWrite k => exact appendWrite_ok h hs hlead
  | noteWrite k => exact noteWrite_ok h hs hlead
  | ship k peer => exact ship_ok h hs
  | finishWrite k =>
    obtain rfl := Option.some.inj hs
    exact ⟨a, { h with writers := fun wr hwr => h.writers wr (List.mem_of_mem_eraseIdx hwr) }⟩
  | readStream i peer c reported reportedTerm => exact readStream_ok h hs
  | readTail i peer c => exact readTail_ok h hs
  | sampleTerm k => exact sampleTerm_ok h hs (hok.leadsRun k rfl)
  | sendBatch k count => exact sendBatch_ok h hs
  | deliver i message durable => exact deliver_ok h hs hlead
  | reply k r durable => exact reply_ok h hs (hok.inBatch (k, r) rfl) hlead
  | dropSender k =>
    obtain rfl := Option.some.inj hs
    exact ⟨a, { h with senders := fun sd hsd => h.senders sd (List.mem_of_mem_eraseIdx hsd) }⟩

theorem streamSim_run {tasks : List (Task ι β)}
    (hrun : run (Streaming.step g) (Streaming.initial g) tasks = some s)
    (hok : Meets (Streaming.step g) (Orderly g) (Streaming.initial g) tasks) :
    ∃ a, StreamSim g a s :=
  run_invariant_of_meets (I := fun s => ∃ a, StreamSim g a s)
    (fun _ _ _ ⟨_, h⟩ hok hs => streamSim_step h hok hs) hrun hok
    ⟨_, sim_initial g, by simp [Streaming.initial], by simp [Streaming.initial],
      by simp [Streaming.initial], by simp [Streaming.initial]⟩

end Runs

end DewDB.StreamingInv
