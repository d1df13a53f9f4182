import CDbK8s.Lib.Causality
import CDbK8s.Launch.Model

/-!
# Containers start in order

An event waits for others (`needs`), as the GO byte of a container for the READY bytes of those
before it. Every trace of the system is causal for this, whatever the schedule, and whoever dies on
the way.
-/

namespace CDbK8s.Launch

open Base Lib.Causality List Function

variable {e : Event} {i j : Nat}

/-! ## What has to happen before -/

/-- The READY bytes of the containers before `i`. -/
def readyBefore (i : Nat) : List Event := (range i).map fun k => .wrote k .ready

/-- The events that an event waits for. -/
def needs : Event → List Event
  | .wrote i .go => readyBefore i
  | .wrote i .ready => [.setRootfs i, .setProc i, .setNetwork i]
  | .passedGo i => [.wrote i .go]
  | .executed i => [.wrote i .go]
  | .setRootfs _ => []
  | .setProc _ => []
  | .setNetwork _ => []

/-- The events behind a child at this point of its code. -/
def ChildPc.done (j : Nat) : ChildPc → List Event
  | .waitGo (.close (_ + 1)) => [.wrote j .go]
  | .rootfs => [.wrote j .go]
  | .proc => [.wrote j .go, .setRootfs j]
  | .network => [.wrote j .go, .setRootfs j, .setProc j]
  | .sendReady _ => [.wrote j .go, .setRootfs j, .setProc j, .setNetwork j]
  | .closeRange => [.wrote j .go]
  | .priv => [.wrote j .go]
  | .exec => [.wrote j .go]
  | _ => []

/-- The events behind the launcher at this point of its code. -/
def LauPc.done : LauPc → List Event
  | .sendGo i _ => readyBefore i
  | .waitReady i .read => readyBefore i
  | .waitReady i (.close 0) => readyBefore i
  | .waitReady i (.close (_ + 1)) => readyBefore (i + 1)
  | .sleep i => readyBefore (i + 1)
  | _ => []

/-- Every event stands behind those it needs. -/
structure Inv (s : Sys) : Prop where
  causal : Causal needs s.trace
  child : ∀ j, ∀ e ∈ (s.child j).done j, e ∈ s.trace
  lau : ∀ e ∈ s.lau.done, e ∈ s.trace
  pipe : ∀ i c, s.pipe i c ≠ [] → .wrote i c ∈ s.trace

theorem readyBefore_succ (i : Nat) : readyBefore (i + 1) = readyBefore i ++ [.wrote i .ready] := by
  unfold readyBefore
  simp [range_succ]

theorem inv_prepared (n : Nat) : Inv (prepared n) := by
  refine ⟨causal_nil, ?_, ?_, ?_⟩
  · intro j e he
    cases he
  · intro e he
    unfold prepared startHead at he
    split at he <;> cases he
  · intro i c hne
    exact absurd rfl hne

/-! ## Changes that keep it -/

section
variable {s : Sys}
variable (h : Inv s)
include h

theorem Inv.release (p : Proc) (i : Nat) (e : End) : Inv (s.release p i e) :=
  ⟨h.causal, h.child, h.lau, h.pipe⟩

theorem Inv.releaseAll (p : Proc) : Inv (s.releaseAll p) :=
  ⟨h.causal, h.child, h.lau, h.pipe⟩

theorem Inv.happened (hneeds : ∀ d ∈ needs e, d ∈ s.trace) : Inv (s.happened e) :=
  ⟨h.causal.snoc hneeds, fun j d hd => mem_append_left _ (h.child j d hd),
    fun d hd => mem_append_left _ (h.lau d hd),
    fun i c hne => mem_append_left _ (h.pipe i c hne)⟩

theorem Inv.gotoChild {pc : ChildPc} (hdone : ∀ e ∈ pc.done j, e ∈ s.trace) :
    Inv (s.gotoChild j pc) := by
  refine ⟨h.causal, fun k e he => ?_, h.lau, h.pipe⟩
  change e ∈ (update s.child j pc k).done k at he
  by_cases hk : k = j
  · subst hk
    rw [update_self] at he
    exact hdone e he
  · rw [update_of_ne hk] at he
    exact h.child k e he

theorem Inv.gotoLau {pc : LauPc} (hdone : ∀ e ∈ pc.done, e ∈ s.trace) : Inv (s.gotoLau pc) :=
  ⟨h.causal, h.child, hdone, h.pipe⟩

theorem Inv.setPipe {c : Chan} {bytes : Bytes} (hbytes : bytes ≠ [] → .wrote i c ∈ s.trace) :
    Inv (s.setPipe i c bytes) := by
  refine ⟨h.causal, h.child, h.lau, fun i' c' hne => ?_⟩
  change (if i' = i ∧ c' = c then bytes else s.pipe i' c') ≠ [] at hne
  by_cases hic : i' = i ∧ c' = c
  · rw [if_pos hic] at hne
    obtain ⟨rfl, rfl⟩ := hic
    exact hbytes hne
  · rw [if_neg hic] at hne
    exact h.pipe i' c' hne

theorem Inv.clone (i : Nat) : Inv (s.clone i) := by
  have hborn : Inv (s.gotoChild i .identity) := h.gotoChild nofun
  exact ⟨hborn.causal, hborn.child, hborn.lau, hborn.pipe⟩

theorem Inv.reading (p : Proc) (i : Nat) (c : Chan) (e : End) (pc : ReadPc) :
    Inv (s.reading p i c e pc) := by
  cases pc with
  | close _ => exact h.release p i e
  | read =>
    refine h.setPipe fun hne => h.pipe i c fun hnil => hne ?_
    rw [hnil]
    rfl

omit h in
theorem trace_reading (s : Sys) (p : Proc) (i : Nat) (c : Chan) (e : End) (pc : ReadPc) :
    (s.reading p i c e pc).trace = s.trace := by
  cases pc <;> rfl

theorem Inv.writing (p : Proc) (i : Nat) (c : Chan) (e : End) (pc : WritePc)
    (hneeds : ∀ d ∈ needs (.wrote i c), d ∈ s.trace) : Inv (s.writing p i c e pc) := by
  cases pc with
  | close => exact h.release p i e
  | write => exact (h.happened hneeds).setPipe fun _ => mem_append_right _ mem_cons_self

omit h in
theorem mem_writing {d : Event} (hd : d ∈ s.trace) (p : Proc) (i : Nat) (c : Chan) (e : End)
    (pc : WritePc) : d ∈ (s.writing p i c e pc).trace := by
  cases pc with
  | close => exact hd
  | write => exact mem_append_left _ hd

theorem Inv.exit (j code : Nat) : Inv (s.exit j code) :=
  (h.releaseAll _).gotoChild nofun

theorem Inv.orExit (j code : Nat) (o : Outcome) {done : Sys} (hdone : Inv done) :
    Inv (s.orExit j code o done) := by
  cases o with
  | ok => exact hdone
  | intr => exact h.exit j code
  | fail => exact h.exit j code

theorem Inv.orFail (o : Outcome) {done : Sys} (hdone : Inv done) : Inv (s.orFail o done) := by
  cases o with
  | ok => exact hdone
  | intr => exact h.gotoLau nofun
  | fail => exact h.gotoLau nofun

end

/-! ## Steps -/

theorem syncPipeRead_byte {pipe : Bytes} {writers run : Bool} {pc : ReadPc} {o : Outcome} :
    (∀ nr, syncPipeRead pipe writers run pc o = .goto (.close (nr + 1)) → pc = .read ∧ pipe ≠ []) ∧
      (syncPipeRead pipe writers run pc o = .returns 0 → ∃ nr, pc = .close (nr + 1)) := by
  cases pc with
  | read =>
    cases o with
    | ok =>
      unfold syncPipeRead
      by_cases hne : pipe ≠ []
      · simp [hne]
      · cases writers <;> simp [hne]
    | intr => cases run <;> simp [syncPipeRead, LAU_INTR]
    | fail => simp [syncPipeRead, LAU_ERR]
  | close nr =>
    cases nr with
    | zero => cases o <;> simp [syncPipeRead, LAU_EOF, LAU_ERR]
    | succ nr => cases o <;> simp [syncPipeRead]

variable {n : Nat} {needNetwork : Nat → Bool} {s : Sys}

section
variable (h : Inv s)
include h

theorem Inv.afterSetup {pc pc' : ChildPc} (hpc : s.child j = pc) (hneeds : needs e = [])
    (hdone : pc'.done j = pc.done j ++ [e]) : Inv ((s.happened e).gotoChild j pc') := by
  have hnow : Inv (s.happened e) := h.happened (by rw [hneeds]; exact nofun)
  refine hnow.gotoChild fun d hd => ?_
  rw [hdone] at hd
  rcases mem_append.1 hd with hold | hnew
  · exact mem_append_left _ (h.child j d (by rw [hpc]; exact hold))
  · exact mem_append_right _ hnew

theorem Inv.childWaitGo {pc : ReadPc} (hpc : s.child j = .waitGo pc) (o : Outcome) :
    Inv (childStep n needNetwork s j o) := by
  have hdone := h.child j
  unfold childStep
  rw [hpc] at hdone ⊢
  dsimp only
  obtain ⟨hbyte, hzero⟩ := @syncPipeRead_byte _ _ _ pc o
  generalize syncPipeRead _ _ _ pc o = m at *
  cases m with
  | blocked => exact h
  | goto pc' =>
    cases pc' with
    | read => exact h
    | close nr =>
      refine (h.reading _ _ _ _ _).gotoChild ?_
      rw [trace_reading]
      cases nr with
      | zero => exact nofun
      | succ nr =>
        intro e he
        rw [mem_singleton.1 he]
        exact h.pipe j .go (hbyte nr rfl).2
  | returns rc =>
    by_cases hrc : rc = 0
    · subst hrc
      obtain ⟨nr, rfl⟩ := hzero rfl
      have hgo : .wrote j .go ∈ s.trace := hdone _ mem_cons_self
      have hread := h.reading (.child j) j .go .goRead (.close (nr + 1))
      refine (hread.happened fun d hd => ?_).gotoChild fun d hd => ?_
      · rw [mem_singleton.1 hd]
        exact hgo
      · rw [mem_singleton.1 hd]
        exact mem_append_left _ hgo
    · simp only [ne_eq, hrc]
      exact h.exit j 2

theorem Inv.childSendReady {pc : WritePc} (hpc : s.child j = .sendReady pc) (o : Outcome) :
    Inv (childStep n needNetwork s j o) := by
  have hdone := h.child j
  unfold childStep
  rw [hpc] at hdone ⊢
  dsimp only
  have hwrite := h.writing (.child j) j .ready .readyWrite pc fun d hd => hdone d (.tail _ hd)
  generalize syncPipeWrite _ _ pc o = m
  cases m with
  | blocked => exact h
  | goto pc' =>
    cases pc' with
    | write => exact h
    | close => exact hwrite.gotoChild fun d hd => mem_writing (hdone d hd) _ _ _ _ _
  | returns rc =>
    by_cases hrc : rc = 0
    · subst hrc
      refine hwrite.gotoChild fun d hd => mem_writing ?_ _ _ _ _ _
      rw [mem_singleton.1 hd]
      exact hdone _ mem_cons_self
    · simp only [ne_eq, hrc]
      exact h.exit j 6

theorem Inv.childStep (j : Nat) (o : Outcome) : Inv (childStep n needNetwork s j o) := by
  have hdone := h.child j
  cases hpc : s.child j with
  | waitGo pc => exact h.childWaitGo hpc o
  | sendReady pc => exact h.childSendReady hpc o
  | unborn => simpa only [Launch.childStep, hpc] using h
  | running => simpa only [Launch.childStep, hpc] using h
  | exited _ => simpa only [Launch.childStep, hpc] using h
  | killed => simpa only [Launch.childStep, hpc] using h
  | identity =>
    simp only [Launch.childStep, hpc]
    exact h.orExit j 1 o (h.gotoChild nofun)
  | closeReadyRead =>
    simp only [Launch.childStep, hpc]
    exact h.orExit j 2 o ((h.release _ _ _).gotoChild nofun)
  | closeGoWrite =>
    simp only [Launch.childStep, hpc]
    exact h.orExit j 2 o ((h.release _ _ _).gotoChild nofun)
  | rootfs =>
    simp only [Launch.childStep, hpc]
    exact h.orExit j 3 o (h.afterSetup hpc rfl rfl)
  | proc =>
    simp only [Launch.childStep, hpc]
    exact h.orExit j 4 o (h.afterSetup hpc rfl rfl)
  | network =>
    simp only [Launch.childStep, hpc]
    split
    · exact h.orExit j 5 o (h.afterSetup hpc rfl rfl)
    · exact h.afterSetup hpc rfl rfl
  | closeRange =>
    rw [hpc] at hdone
    simp only [Launch.childStep, hpc]
    exact h.orExit j 7 o ((h.releaseAll _).gotoChild hdone)
  | priv =>
    rw [hpc] at hdone
    simp only [Launch.childStep, hpc]
    exact h.orExit j 8 o (h.gotoChild hdone)
  | exec =>
    rw [hpc] at hdone
    simp only [Launch.childStep, hpc]
    have hrun : Inv (s.happened (.executed j)) := h.happened hdone
    exact h.orExit j 9 o (hrun.gotoChild nofun)

omit h in
theorem done_startHead (n i : Nat) : (startHead n i).done = [] := by
  unfold startHead
  split <;> rfl

omit h in
theorem done_syncHead {n : Nat} (he : e ∈ (syncHead n i).done) : e ∈ readyBefore i := by
  unfold syncHead at he
  split at he
  · exact he
  · cases he

theorem Inv.lauSendGo {pc : WritePc} (hpc : s.lau = .sendGo i pc) (o : Outcome) :
    Inv (lauStep n s o) := by
  have hdone := h.lau
  unfold lauStep
  rw [hpc] at hdone ⊢
  dsimp only
  have hwrite := h.writing .lau i .go .goWrite pc hdone
  generalize syncPipeWrite _ _ pc o = m
  cases m with
  | blocked => exact h
  | goto pc' =>
    cases pc' with
    | write => exact h
    | close => exact hwrite.gotoLau fun d hd => mem_writing (hdone d hd) _ _ _ _ _
  | returns rc =>
    by_cases hrc : rc = 0
    · subst hrc
      exact hwrite.gotoLau fun d hd => mem_writing (hdone d hd) _ _ _ _ _
    · simp only [ne_eq, hrc]
      exact h.gotoLau nofun

omit h in
theorem mem_done_waitReady (pc : ReadPc) (he : e ∈ readyBefore i) :
    e ∈ (LauPc.waitReady i pc).done := by
  cases pc with
  | read => exact he
  | close nr =>
    cases nr with
    | zero => exact he
    | succ nr =>
      rw [LauPc.done, readyBefore_succ]
      exact mem_append_left _ he

theorem Inv.lauWaitReady {pc : ReadPc} (hpc : s.lau = .waitReady i pc) (o : Outcome) :
    Inv (lauStep n s o) := by
  have hdone := h.lau
  unfold lauStep
  rw [hpc] at hdone ⊢
  dsimp only
  obtain ⟨hbyte, hzero⟩ := @syncPipeRead_byte _ _ _ pc o
  generalize syncPipeRead _ _ _ pc o = m at *
  have hbefore : ∀ e ∈ readyBefore i, e ∈ s.trace := fun e he => hdone e (mem_done_waitReady pc he)
  cases m with
  | blocked => exact h
  | goto pc' =>
    cases pc' with
    | read => exact h
    | close nr =>
      refine (h.reading _ _ _ _ _).gotoLau ?_
      rw [trace_reading]
      cases nr with
      | zero => exact hbefore
      | succ nr =>
        intro e he
        rw [LauPc.done, readyBefore_succ] at he
        rcases mem_append.1 he with hold | hnew
        · exact hbefore e hold
        · rw [mem_singleton.1 hnew]
          exact h.pipe i .ready (hbyte nr rfl).2
  | returns rc =>
    by_cases hrc : rc = 0
    · subst hrc
      obtain ⟨nr, rfl⟩ := hzero rfl
      exact (h.reading _ _ _ _ _).gotoLau hdone
    · simp only [ne_eq, hrc]
      exact h.gotoLau nofun

theorem Inv.lauStep (o : Outcome) : Inv (lauStep n s o) := by
  have hdone := h.lau
  cases hpc : s.lau with
  | sendGo i pc => exact h.lauSendGo hpc o
  | waitReady i pc => exact h.lauWaitReady hpc o
  | clone i =>
    simp only [Launch.lauStep, hpc]
    exact h.orFail o ((h.clone i).gotoLau nofun)
  | closeGoRead i =>
    simp only [Launch.lauStep, hpc]
    exact h.orFail o ((h.release _ _ _).gotoLau nofun)
  | closeReadyWrite i =>
    simp only [Launch.lauStep, hpc]
    refine h.orFail o ((h.release _ _ _).gotoLau ?_)
    rw [done_startHead]
    exact nofun
  | link =>
    simp only [Launch.lauStep, hpc]
    exact h.orFail o (h.gotoLau fun _ he => nomatch done_syncHead he)
  | sleep i =>
    rw [hpc] at hdone
    simp only [Launch.lauStep, hpc]
    exact h.gotoLau fun e he => hdone e (done_syncHead he)
  | synced =>
    simp only [Launch.lauStep, hpc]
    exact h.releaseAll .lau
  | failed =>
    simp only [Launch.lauStep, hpc]
    exact h.releaseAll .lau

theorem Inv.kill (j : Nat) : Inv (s.kill j) := by
  unfold Sys.kill
  split
  · exact h
  · exact h
  · exact (h.releaseAll _).gotoChild nofun

theorem Inv.step (a : Act) : Inv (step n needNetwork s a) := by
  cases a with
  | move p o =>
    cases p with
    | lau => exact h.lauStep o
    | child j => exact h.childStep j o
  | signal p => exact ⟨h.causal, h.child, h.lau, h.pipe⟩
  | kill j => exact h.kill j

end

theorem inv_run (acts : List Act) : ∀ {s : Sys}, Inv s → Inv (acts.foldl (step n needNetwork) s) := by
  induction acts with
  | nil => exact fun h => h
  | cons a acts ih => exact fun h => ih (h.step a)

/-! ## The order of the containers -/

/-- For any number of containers and any schedule of the launcher and the containers, with
containers dying anywhere: `child_wait_go` of a container returns only after the container
before it has set up its root file system, `/proc` and its network and has written its
READY byte, and a container executes its program only after the launcher has written its
GO byte. -/
theorem containers_start_in_order (n : Nat) (needNetwork : Nat → Bool) (acts : List Act)
    (before after : List Event) (i : Nat) :
    ((acts.foldl (step n needNetwork) (prepared n)).trace = before ++ .passedGo (i + 1) :: after →
      .setRootfs i ∈ before ∧ .setProc i ∈ before ∧ .setNetwork i ∈ before ∧
        .wrote i .ready ∈ before) ∧
    ((acts.foldl (step n needNetwork) (prepared n)).trace = before ++ .executed i :: after →
      .wrote i .go ∈ before) := by
  have hcausal := (@inv_run n needNetwork acts _ (inv_prepared n)).causal
  constructor
  · intro htrace
    rw [htrace] at hcausal
    have hgo : .wrote (i + 1) .go ∈ before := hcausal _ _ _ rfl _ mem_cons_self
    have hready : .wrote i .ready ∈ before := by
      refine hcausal.before hgo ?_
      rw [needs, readyBefore_succ]
      exact mem_append_right _ mem_cons_self
    exact ⟨hcausal.before hready (by simp [needs]), hcausal.before hready (by simp [needs]),
      hcausal.before hready (by simp [needs]), hready⟩
  · intro htrace
    rw [htrace] at hcausal
    exact hcausal _ _ _ rfl _ mem_cons_self

/-- A schedule for two containers: the launcher starts both and syncs with the first, the
second passes, and the first executes its program. -/
def twoContainers : List Act :=
  replicate 9 (.move .lau .ok) ++ replicate 10 (.move (.child 0) .ok) ++
    replicate 5 (.move .lau .ok) ++ replicate 5 (.move (.child 1) .ok) ++
    replicate 3 (.move (.child 0) .ok)

theorem two_containers_start_in_order :
    ((twoContainers.foldl (step 2 fun _ => true) (prepared 2)).trace =
        [.wrote 0 .go, .passedGo 0, .setRootfs 0, .setProc 0, .setNetwork 0, .wrote 0 .ready,
          .wrote 1 .go] ++ .passedGo 1 :: [.executed 0] ∧
      .wrote 0 .ready ∈ [Event.wrote 0 .go, .passedGo 0, .setRootfs 0, .setProc 0, .setNetwork 0,
        .wrote 0 .ready, .wrote 1 .go]) := by
  have htrace : (twoContainers.foldl (step 2 fun _ => true) (prepared 2)).trace =
      [.wrote 0 .go, .passedGo 0, .setRootfs 0, .setProc 0, .setNetwork 0, .wrote 0 .ready,
        .wrote 1 .go] ++ .passedGo 1 :: [.executed 0] := by
    decide +kernel
  exact ⟨htrace, ((containers_start_in_order 2 (fun _ => true) _ _ _ 0).1 htrace).2.2.2⟩

end CDbK8s.Launch
