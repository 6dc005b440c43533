/-
# The scheduler's lists

A thread that has not finished runs, is ready, or sleeps in the queue of one
semaphore, and stands in one place at most: `Sleep`, `ReadyToRun`, `Yield` and
`Finish` keep it so in every run. So the current thread of a reachable state
is one that has not finished, which the statements about the running process
rest on.

Key definitions: `Kernel.Alive`, `Kernel.Placed`.
Key theorems: `Kernel.placed_turn`, `Kernel.placed_step`.
-/
import Mathlib
import Nachos.Threads.Refinement

namespace Nachos
namespace Kernel

/-- The thread has been created and has not finished. -/
def Alive (s : Kernel) (t : Tid) : Prop := ∃ th, s.threads t = some th ∧ th.pc ≠ .finished

/-- No thread is in two places, and none that has finished is in one. -/
structure Placed (s : Kernel) : Prop where
  current : ∀ t, s.current = some t → s.Alive t ∧ t ∉ s.readyList ∧ ∀ x, t ∉ (s.sem x).queue
  ready : ∀ t ∈ s.readyList, s.Alive t ∧ ∀ x, t ∉ (s.sem x).queue
  nodup : s.readyList.Nodup
  queue : ∀ x, ∀ t ∈ (s.sem x).queue, s.Alive t ∧ ∀ y, t ∈ (s.sem y).queue → y = x
  queueNodup : ∀ x, (s.sem x).queue.Nodup

variable {s s' : Kernel} {t u : Tid} {th th' : Thread} {l : Label}

/-! ### The parts of a step -/

/-- Nobody moves; a queue may be thrown away. -/
theorem Placed.frame (hP : Placed s) (hc : s'.current = s.current) (hr : s'.readyList = s.readyList)
    (hq : ∀ x, (s'.sem x).queue.Sublist (s.sem x).queue) (ha : ∀ u, s.Alive u → s'.Alive u) :
    Placed s' := by
  refine
    { current := fun u hu => ?_
      ready := fun u hu => ?_
      nodup := by rw [hr]; exact hP.nodup
      queue := fun x u hu => ?_
      queueNodup := fun x => (hP.queueNodup x).sublist (hq x) }
  · rw [hc] at hu
    obtain ⟨h1, h2, h3⟩ := hP.current u hu
    exact ⟨ha u h1, by rw [hr]; exact h2, fun x hx => h3 x ((hq x).subset hx)⟩
  · rw [hr] at hu
    obtain ⟨h1, h2⟩ := hP.ready u hu
    exact ⟨ha u h1, fun x hx => h2 x ((hq x).subset hx)⟩
  · obtain ⟨h1, h2⟩ := hP.queue x u ((hq x).subset hu)
    exact ⟨ha u h1, fun y hy => h2 y ((hq y).subset hy)⟩

theorem alive_update (t : Tid) (th' : Thread) (hpc : th'.pc ≠ .finished) (h : s.Alive u) :
    ∃ th, Function.update s.threads t (some th') u = some th ∧ th.pc ≠ .finished := by
  obtain ⟨th, h1, h2⟩ := h
  rw [Function.update_apply]
  split_ifs
  · exact ⟨th', rfl, hpc⟩
  · exact ⟨th, h1, h2⟩

theorem Placed.setThread (hP : Placed s) (hpc : th'.pc ≠ .finished) : Placed (s.setThread t th') :=
  hP.frame rfl rfl (fun _ => List.Sublist.refl _) fun _ => alive_update t th' hpc

theorem Placed.setPcb (hP : Placed s) (m : Ptr) (b : PCB) : Placed (s.setPcb m b) :=
  hP.frame rfl rfl (fun _ => List.Sublist.refl _) fun _ h => h

/-- `ReadyToRun` of a thread that is in no other place. -/
theorem Placed.readyToRun (hP : Placed s) (ha : s.Alive u) (hc : s.current ≠ some u)
    (hr : u ∉ s.readyList) (hq : ∀ x, u ∉ (s.sem x).queue) :
    Placed { s with readyList := s.readyList ++ [u] } := by
  refine ⟨fun w hw => ?_, fun w hw => ?_, ?_, hP.queue, hP.queueNodup⟩
  · obtain ⟨h1, h2, h3⟩ := hP.current w hw
    refine ⟨h1, fun h => ?_, h3⟩
    rcases List.mem_append.mp h with h | h
    · exact h2 h
    · rw [List.mem_singleton.mp h] at hw
      exact hc hw
  · rcases List.mem_append.mp hw with h | h
    · exact hP.ready w h
    · rw [List.mem_singleton.mp h]
      exact ⟨ha, hq⟩
  · exact hP.nodup.append (List.nodup_singleton u) (List.disjoint_singleton.mpr hr)

/-- The thread at the front of a queue leaves it. -/
theorem Placed.dequeue (hP : Placed s) {x : SemId} {y : Semaphore}
    (hy : (s.sem x).queue = u :: y.queue) :
    Placed { s with sem := Function.update s.sem x y } ∧ s.Alive u ∧ s.current ≠ some u ∧
    u ∉ s.readyList ∧
      ∀ z, u ∉ (Function.update s.sem x y z).queue := by
  have hu : u ∈ (s.sem x).queue := by rw [hy]; exact List.mem_cons_self
  obtain ⟨ha, hone⟩ := hP.queue x u hu
  refine ⟨hP.frame rfl rfl (fun z => ?_) fun _ h => h, ha, fun hc => (hP.current u hc).2.2 x hu,
    fun hr => (hP.ready u hr).2 x hu, fun z hz => ?_⟩
  · simp only [Function.update_apply]
    split_ifs with hzx
    · rw [hzx, hy]
      exact List.sublist_cons_self u y.queue
    · exact List.Sublist.refl _
  · rw [Function.update_apply] at hz
    split_ifs at hz with hzx
    · have := hP.queueNodup x
      rw [hy] at this
      exact (List.nodup_cons.mp this).1 hz
    · exact hzx (hone z hz)

theorem Placed.v (hP : Placed s) (x : SemId) : Placed (s.v x) := by
  cases hq : (s.sem x).queue with
  | nil =>
    refine hP.frame rfl ?_ (fun z => ?_) fun _ h => h
    · simp [Kernel.v, Semaphore.v, hq]
    · simp only [Kernel.v, Semaphore.v, hq, Function.update_apply]
      split_ifs
      · exact List.nil_sublist _
      · exact List.Sublist.refl _
  | cons u q =>
    have hy : (s.sem x).queue = u :: (s.sem x).v.1.queue := by simp [Semaphore.v, hq]
    obtain ⟨hP', ha, hc, hr, hz⟩ := hP.dequeue hy
    have := hP'.readyToRun ha hc hr hz
    have he : (s.sem x).v.2 = some u := by simp [Semaphore.v, hq]
    simpa [Kernel.v, he] using this

/-- A pass of the loop of `P` by the current thread. -/
theorem Placed.p (hP : Placed s) (hcur : s.current = some t) (x : SemId) (k : Cont) :
    Placed (s.p t th x k) := by
  obtain ⟨-, hr, hq⟩ := hP.current t hcur
  by_cases hv : (s.sem x).value = 0
  · have hp : (s.sem x).pTest t = ({ s.sem x with queue := (s.sem x).queue ++ [t] }, false) := by
      rw [Semaphore.pTest, if_pos hv]
    have hmem : ∀ z w, w ∈ ((s.p t th x k).sem z).queue → w ∈ (s.sem z).queue ∨
        (w = t ∧ z = x) := by
      intro z w hw
      simp only [Kernel.p, hp, Function.update_apply] at hw
      split_ifs at hw with hz
      · rcases List.mem_append.mp hw with h | h
        · exact Or.inl (hz ▸ h)
        · exact Or.inr ⟨List.mem_singleton.mp h, hz⟩
      · exact Or.inl hw
    have hal : ∀ w, s.Alive w → (s.p t th x k).Alive w := fun w => alive_update t _ (by simp [hp])
    refine ⟨fun w hw => ?_, fun w hw => ⟨hal w (hP.ready w hw).1, fun z hz => ?_⟩, hP.nodup,
      fun z w hw => ?_, fun z => ?_⟩
    · simp [Kernel.p, hp] at hw
    · rcases hmem z w hz with h | ⟨rfl, -⟩
      · exact (hP.ready w hw).2 z h
      · exact hr hw
    · rcases hmem z w hw with h | ⟨rfl, rfl⟩
      · refine ⟨hal w (hP.queue z w h).1, fun y hy => ?_⟩
        rcases hmem y w hy with h' | ⟨rfl, -⟩
        · exact (hP.queue z w h).2 y h'
        · exact absurd h (hq z)
      · refine ⟨hal w (hP.current w hcur).1, fun y hy => ?_⟩
        rcases hmem y w hy with h' | ⟨-, h'⟩
        · exact absurd h' (hq y)
        · exact h'
    · simp only [Kernel.p, hp, Function.update_apply]
      split_ifs with hz
      · exact (hP.queueNodup x).append (List.nodup_singleton t) (List.disjoint_singleton.mpr (hq x))
      · exact hP.queueNodup z
  · have hp : (s.sem x).pTest t = ({ s.sem x with value := (s.sem x).value - 1 }, true) := by
      rw [Semaphore.pTest, if_neg hv]
    refine hP.frame ?_ rfl (fun z => ?_) fun w => alive_update t _ (by simp [hp])
    · simp [Kernel.p, hp]
    · simp only [Kernel.p, hp, Function.update_apply]
      split_ifs with hz
      · rw [hz]
      · exact List.Sublist.refl _

/-- `PCB::Exec` forks a thread that did not exist. -/
theorem Placed.execPcb (hP : Placed s) (hn : s.threads s.nthreads = none) (p : Ptr) (f : ℕ)
    (name : CString) :
    Placed (s.execPcb t th p f name) := by
  have hnew : ¬ s.Alive s.nthreads := by
    rintro ⟨th, h, -⟩
    rw [hn] at h; cases h
  have hal : ∀ w, w = s.nthreads ∨ s.Alive w → (s.execPcb t th p f name).Alive w := by
    intro w hw
    by_cases hwn : w = s.nthreads
    · refine ⟨Thread.new name f p, ?_, by simp [Thread.new]⟩
      simp [Kernel.execPcb, hwn]
    · obtain ⟨th', h1, h2⟩ := alive_update t { th with pc := .at_ (.execForked p f) } (by simp)
        (hw.resolve_left hwn)
      refine ⟨th', ?_, h2⟩
      simp only [Kernel.execPcb, Function.update_of_ne hwn]
      exact h1
  have hP' : Placed { s.execPcb t th p f name with readyList := s.readyList } :=
    hP.frame rfl rfl (fun _ => List.Sublist.refl _) fun w hw => hal w (Or.inr hw)
  exact hP'.readyToRun (hal s.nthreads (Or.inl rfl)) (fun hc => hnew (hP.current _ hc).1)
    (fun hr => hnew (hP.ready _ hr).1) fun x hx => hnew (hP.queue x _ hx).1

/-- `Finish` of the current thread. -/
theorem Placed.finish (hP : Placed s) (hcur : s.current = some t) (b : Bitmap) (d : Option Tid) :
    Placed
    { s.setThread t { th with pc := .finished } with
      bm := b, current := none, toBeDestroyed := d } := by
  obtain ⟨-, hr, hq⟩ := hP.current t hcur
  have hal : ∀ w, s.Alive w → w ≠ t → Alive
      { s.setThread t { th with pc := .finished } with
        bm := b, current := none, toBeDestroyed := d } w := by
    rintro w ⟨thw, h1, h2⟩ hw
    exact ⟨thw, by simp only [Kernel.setThread, Function.update_of_ne hw]; exact h1, h2⟩
  refine ⟨fun w hw => absurd hw (by simp),
    fun w hw => ⟨hal w (hP.ready w hw).1 ?_, (hP.ready w hw).2⟩, hP.nodup, fun x w hw =>
    ⟨hal w (hP.queue x w hw).1 ?_, (hP.queue x w hw).2⟩, hP.queueNodup⟩
  · rintro rfl
    exact hr hw
  · rintro rfl
    exact hq x hw

/-- Nothing runs, and a ready thread is chosen. -/
theorem Placed.dispatch (hP : Placed { s with current := none }) (ha : s.Alive u)
    (hr : u ∉ s.readyList) (hq : ∀ x, u ∉ (s.sem x).queue) : Placed (s.dispatch u) := by
  obtain ⟨hal, hsem, hrdy⟩ : (∀ w, s.Alive w → (s.dispatch u).Alive w) ∧
      (s.dispatch u).sem = s.sem ∧
      (s.dispatch u).readyList = s.readyList := by
    obtain ⟨x, h⟩ | ⟨d, th, ht, h⟩ := dispatch_cases s u
    · rw [h]
      exact ⟨fun _ hw => hw, rfl, rfl⟩
    · rw [h]
      refine ⟨?_, rfl, rfl⟩
      rintro w ⟨thw, h1, h2⟩
      by_cases hd : w = d
      · subst hd
        obtain rfl : th = thw := Option.some.inj (ht.symm.trans h1)
        exact ⟨_, Function.update_self _ _ _, h2⟩
      · exact ⟨thw, (Function.update_of_ne hd _ _).trans h1, h2⟩
  refine ⟨fun w hw => ?_, fun w hw => ?_, by rw [hrdy]; exact hP.nodup, fun x w hw => ?_,
    fun x => ?_⟩
  · obtain rfl : u = w := Option.some.inj hw
    rw [hrdy, hsem]
    exact ⟨hal u ha, hr, hq⟩
  · rw [hrdy] at hw
    rw [hsem]
    exact ⟨hal w (hP.ready w hw).1, (hP.ready w hw).2⟩
  · rw [hsem] at hw ⊢
    exact ⟨hal w (hP.queue x w hw).1, (hP.queue x w hw).2⟩
  · rw [hsem]
    exact hP.queueNodup x

theorem Placed.switch (hP : Placed s) {k : ℕ} (h : s.switch k = some s') : Placed s' := by
  obtain ⟨u, hk, h⟩ := switch_cases h
  obtain ⟨hlt, hu⟩ := List.getElem?_eq_some_iff.mp hk
  have hmem : u ∈ s.readyList := hu ▸ List.getElem_mem hlt
  have hsub : (s.readyList.eraseIdx k).Sublist s.readyList := List.eraseIdx_sublist ..
  have hnot : u ∉ s.readyList.eraseIdx k := by
    have hperm := (List.getElem_cons_eraseIdx_perm hlt).nodup_iff.mpr hP.nodup
    rw [hu] at hperm
    exact (List.nodup_cons.mp hperm).1
  obtain ⟨ha, hq⟩ := hP.ready u hmem
  -- the chosen thread is off the ready list; the current one, if there is one, goes to its end
  have hoff : Placed { s with readyList := s.readyList.eraseIdx k, current := none } :=
    ⟨fun w hw => absurd hw (by simp), fun w hw => hP.ready w (hsub.subset hw),
      hP.nodup.sublist hsub, hP.queue, hP.queueNodup⟩
  rcases h with ⟨-, rfl⟩ | ⟨t, hc, -, rfl⟩
  · exact hoff.dispatch ha hnot hq
  · obtain ⟨hta, htr, htq⟩ := hP.current t hc
    have hon := hoff.readyToRun hta (by simp) (fun h => htr (hsub.subset h)) htq
    refine hon.dispatch ha (fun h => ?_) hq
    rcases List.mem_append.mp h with h | h
    · exact hnot h
    · rw [← List.mem_singleton.mp h] at htr
      exact htr hmem

/-! ### Every step -/

theorem placed_turn (hP : Placed s) (hn : s.threads s.nthreads = none) (hcur : s.current = some t)
    (h : Turn s t th l s') : Placed s' := by
  cases h with
  | pass _ hx => exact hP.p hcur _ _
  | begin_ | start | exec | join | joinWait | joinDec | joinRet | exitWait | unremoved =>
    exact hP.setThread (by simp)
  | noMemory | refuse | forked | exitRelease => exact (hP.setThread (by simp)).v _
  | incNumWait | decNumWait | exit => exact ((hP.setPcb _ _).setThread (by simp)).v _
  | loaded | execDone =>
    apply Placed.v
    exact hP.frame rfl rfl (fun _ => List.Sublist.refl _) fun _ => alive_update t _ (by simp)
  | alloc =>
    -- the queues of the new PCB's semaphores are empty
    refine hP.frame rfl rfl (fun x => ?_) fun _ => alive_update t _ (by simp)
    simp only [newSems, Semaphore.new, Function.update_apply]
    split_ifs
    all_goals first | exact List.nil_sublist _ | exact List.Sublist.refl _
  | fork => exact hP.execPcb hn _ _ _
  | refuseJoin => exact hP
  | finish => exact hP.finish hcur _ _

theorem placed_step (hP : Placed s) (hn : s.threads s.nthreads = none) (h : s.step l = some s') :
    Placed s' := by
  rcases step_cases h with ⟨k, -, h⟩ | ⟨t, th, hcur, -, h⟩
  · exact hP.switch h
  · exact placed_turn hP hn hcur h

theorem placed_initial (name : CString) : Placed (initial name) := by
  have hq : ∀ x, ((initial name).sem x).queue = [] := fun x => by cases x <;> rfl
  refine ⟨fun t ht => ?_, fun t ht => absurd ht List.not_mem_nil, List.nodup_nil, fun x t ht => ?_,
    fun x => ?_⟩
  · obtain rfl : 0 = t := Option.some.inj ht
    exact ⟨⟨_, rfl, by simp [Thread.new]⟩, List.not_mem_nil,
      fun x => by rw [hq]; exact List.not_mem_nil⟩
  · rw [hq] at ht; cases ht
  · rw [hq]; exact List.nodup_nil

end Kernel
end Nachos
