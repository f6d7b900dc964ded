import Mathlib.Algebra.GroupWithZero.Nat
import SqlLayout.Files.Pool
import SqlLayout.Proofs.Runs
import SqlLayout.Proofs.Spellings

set_option autoImplicit false

/-! # Runs with several workers

Whatever the schedule, the workers end with the reports and the workspace of the run that formats
one file after another, if no two of the selected paths lead to one place. Inputs in another
order, or given more than once, change no more than the spelling of paths
(`Workspace.formatFiles_congr`).

Writing two files in either order gives the same workspace (`Workspace.write_comm`), so the
workspace that the workers share is at any time the one in which the finished files are written
in the order of their paths (`Pool.Follows`). A step keeps that (`Pool.Follows.step`), since a
file that waits is as it was before the run. Each file takes two steps (`Pool.remaining_step`),
and some step can be made until all files are finished (`Pool.exists_step`).
-/

namespace SqlLayout

/-! ## Writing in either order -/

namespace Dir

/-- A place with a name after that of the folder lies in the folder, any other one beside it. -/
theorem write_folder (n : Text) (entries others : Dir) (place : List Text) (x : ByteArray) :
    (folder n entries others).write place x =
      if place.head? = some n ∧ place.tail ≠ [] then folder n (entries.write place.tail x) others
      else folder n entries (others.write place x) := by
  rcases place with _ | ⟨m, _ | ⟨next, rest⟩⟩
  · simp [write]
  · simp [write]
  · by_cases hm : m = n <;> simp [write, hm]

theorem write_comm (d : Dir) {a b : List Text} (h : a ≠ b) (x y : ByteArray) :
    (d.write a x).write b y = (d.write b y).write a x := by
  induction d generalizing a b with
  | empty => rfl
  | file n old others ih =>
      by_cases ha : a = [n]
      · have hb : b ≠ [n] := fun hb => h (ha.trans hb.symm)
        simp [write, ha, hb]
      · by_cases hb : b = [n]
        · simp [write, ha, hb]
        · simp [write, ha, hb, ih h]
  | folder n entries others ihEntries ihOthers =>
      by_cases ha : a.head? = some n ∧ a.tail ≠ []
      · by_cases hb : b.head? = some n ∧ b.tail ≠ []
        · -- both places lie in the folder, so they differ there
          have htail : a.tail ≠ b.tail := by
            intro htail
            apply h
            rw [← List.cons_head?_tail ha.1, ← List.cons_head?_tail hb.1, htail]
          simp only [write_folder, if_pos ha, if_pos hb, ihEntries htail]
        · simp only [write_folder, if_pos ha, if_neg hb]
      · by_cases hb : b.head? = some n ∧ b.tail ≠ []
        · simp only [write_folder, if_neg ha, if_pos hb]
        · simp only [write_folder, if_neg ha, if_neg hb, ihOthers h]

end Dir

namespace Workspace

variable {w : Workspace} {p q : Path}

theorem Apart.symm (h : w.Apart p q) : w.Apart q p := fun hqp => hqp.trans (h hqp.symm)

theorem write_of_place? {a : List Text} (h : w.place? p = some a) (x : ByteArray) :
    w.write p x = { w with root := w.root.write a x } := by
  simp only [write, h]

theorem write_of_place?_eq_none (h : w.place? p = none) (x : ByteArray) : w.write p x = w := by
  simp only [write, h]

theorem write_comm (h : w.Apart p q) (x y : ByteArray) :
    (w.write p x).write q y = (w.write q y).write p x := by
  have hp := w.place?_write q y p
  have hq := w.place?_write p x q
  cases ha : w.place? p with
  | none =>
      rw [write_of_place?_eq_none ha, write_of_place?_eq_none (hp.trans ha)]
  | some a =>
      cases hb : w.place? q with
      | none => rw [write_of_place?_eq_none hb, write_of_place?_eq_none (hq.trans hb)]
      | some b =>
          have hne : a ≠ b := by
            rintro rfl
            exact h.place?_ne hb ha
          rw [write_of_place? (hq.trans hb), write_of_place? (hp.trans ha), write_of_place? ha,
            write_of_place? hb, Dir.write_comm w.root hne]

/-! ## Reading and writing as two steps -/

variable (w p q) (o : Options)

/-- Formatting a file is reading it and then writing what there is to write. -/
theorem formatAt_eq : w.formatAt o p =
    (⟨p, (w.inspect o p).1⟩, w.put p (w.inspect o p).2) := by
  cases hcontent : w.content? p with
  | none => simp only [formatAt, inspect, hcontent, put]
  | some content =>
      rw [w.formatAt_of_content? o p hcontent]
      simp only [inspect, hcontent]
      cases (formatContent o content).2 <;> rfl

theorem place?_put (new : Option ByteArray) : (w.put p new).place? q = w.place? q := by
  cases new with
  | none => rfl
  | some content => exact w.place?_write p content q

variable {w p q} in
theorem content?_put (h : w.Apart p q) (new : Option ByteArray) :
    (w.put p new).content? q = w.content? q := by
  cases new with
  | none => rfl
  | some content =>
      apply content?_congr (w.place?_write p content q)
      intro a ha
      exact (w.seen?_write p content a).trans (if_neg (h.place?_ne ha))

variable {w p q} in
theorem put_comm (h : w.Apart p q) (new new' : Option ByteArray) :
    (w.put p new).put q new' = (w.put q new').put p new := by
  cases new with
  | none => rfl
  | some content =>
      cases new' with
      | none => rfl
      | some content' => exact write_comm h content content'

variable {w p} in
theorem inspect_congr {w' : Workspace} (h : w'.content? p = w.content? p) :
    w'.inspect o p = w.inspect o p := by
  simp only [inspect, h]

/-! ## Several files -/

/-- The workspace once several files are written, one after another. -/
def putAll (writes : List (Path × Option ByteArray)) : Workspace :=
  writes.foldl (fun w' x => w'.put x.1 x.2) w

theorem putAll_cons (new : Option ByteArray) (writes : List (Path × Option ByteArray)) :
    w.putAll ((p, new) :: writes) = (w.put p new).putAll writes := rfl

theorem putAll_append (writes writes' : List (Path × Option ByteArray)) :
    w.putAll (writes ++ writes') = (w.putAll writes).putAll writes' :=
  List.foldl_append

theorem place?_putAll (writes : List (Path × Option ByteArray)) :
    (w.putAll writes).place? p = w.place? p := by
  induction writes generalizing w with
  | nil => rfl
  | cons x writes ih => exact (ih _).trans (w.place?_put x.1 p x.2)

variable {w p q}

theorem apart_putAll (writes : List (Path × Option ByteArray)) :
    (w.putAll writes).Apart p q ↔ w.Apart p q := by
  unfold Apart
  rw [place?_putAll, place?_putAll]

/-- Writing other files leaves a file as it is. -/
theorem content?_putAll {writes : List (Path × Option ByteArray)}
    (h : ∀ x ∈ writes, x.2 = none ∨ w.Apart x.1 p) :
    (w.putAll writes).content? p = w.content? p := by
  induction writes generalizing w with
  | nil => rfl
  | cons x writes ih =>
      obtain ⟨q, new⟩ := x
      have hlater : ∀ x ∈ writes, x.2 = none ∨ (w.put q new).Apart x.1 p := by
        intro x hx
        rcases h x (List.mem_cons_of_mem _ hx) with hnone | hapart
        · exact Or.inl hnone
        · exact Or.inr ((apart_putAll [(q, new)]).mpr hapart)
      rw [putAll_cons, ih hlater]
      rcases h (q, new) List.mem_cons_self with rfl | hapart
      · rfl
      · exact content?_put hapart new

/-- A file may be written after files that are apart from it. -/
theorem put_putAll {writes : List (Path × Option ByteArray)}
    (h : ∀ x ∈ writes, w.Apart p x.1) (new : Option ByteArray) :
    (w.put p new).putAll writes = (w.putAll writes).put p new := by
  induction writes generalizing w with
  | nil => rfl
  | cons x writes ih =>
      obtain ⟨q, new'⟩ := x
      have hlater : ∀ x ∈ writes, (w.put q new').Apart p x.1 := by
        intro x hx
        exact (apart_putAll [(q, new')]).mpr (h x (List.mem_cons_of_mem _ hx))
      calc (w.put p new).putAll ((q, new') :: writes)
          = ((w.put p new).put q new').putAll writes := rfl
        _ = ((w.put q new').put p new).putAll writes := by
            rw [put_comm (h (q, new') List.mem_cons_self)]
        _ = ((w.put q new').putAll writes).put p new := ih hlater
        _ = (w.putAll ((q, new') :: writes)).put p new := rfl

/-- What a run of one file after another leaves, by what it reads in the beginning. -/
theorem workspace_formatFiles {ps : List Path} (hapart : ps.Pairwise w.Apart) :
    (w.formatFiles o ps).2 = w.putAll (ps.map fun p => (p, (w.inspect o p).2)) := by
  induction ps generalizing w with
  | nil => rfl
  | cons p ps ih =>
      obtain ⟨hfirst, hrest⟩ := List.pairwise_cons.mp hapart
      have hstep : (w.formatAt o p).2 = w.put p (w.inspect o p).2 := by rw [formatAt_eq]
      have hrest' : ps.Pairwise (w.put p (w.inspect o p).2).Apart :=
        hrest.imp (apart_putAll [(p, (w.inspect o p).2)]).mpr
      have hreads : ∀ q ∈ ps,
          (w.put p (w.inspect o p).2).inspect o q = w.inspect o q := by
        intro q hq
        exact inspect_congr o (content?_put (hfirst q hq) _)
      calc (w.formatFiles o (p :: ps)).2
          = ((w.formatAt o p).2.formatFiles o ps).2 := rfl
        _ = ((w.put p (w.inspect o p).2).formatFiles o ps).2 := by rw [hstep]
        _ = (w.put p (w.inspect o p).2).putAll
              (ps.map fun q => (q, ((w.put p (w.inspect o p).2).inspect o q).2)) := ih hrest'
        _ = (w.put p (w.inspect o p).2).putAll (ps.map fun q => (q, (w.inspect o q).2)) := by
            congr 1
            apply List.map_congr_left
            intro q hq
            rw [hreads q hq]

theorem reports_formatFiles {ps : List Path} (hapart : ps.Pairwise w.Apart) :
    (w.formatFiles o ps).1 = ps.map fun p => ⟨p, (w.inspect o p).1⟩ := by
  rw [results_formatFiles o hapart]
  apply List.map_congr_left
  intro p _
  rw [formatAt_eq]

end Workspace

namespace Pool

/-! ## What a step can do -/

variable {o : Options} {workers : Nat} {pool pool' : Pool}

theorem set_of_getElem? {slots : List Slot} {i : Nat} {slot : Slot} (h : slots[i]? = some slot) :
    ∃ before after, slots = before ++ slot :: after ∧ before.length = i ∧
      ∀ slot', slots.set i slot' = before ++ slot' :: after := by
  obtain ⟨hi, rfl⟩ := List.getElem?_eq_some_iff.mp h
  refine ⟨slots.take i, slots.drop (i + 1), ?_, ?_, ?_⟩
  · rw [← List.drop_eq_getElem_cons hi, List.take_append_drop]
  · exact List.length_take_of_le (Nat.le_of_lt hi)
  · intro slot'
    rw [List.set_eq_take_append_cons_drop, if_pos hi]

/-- A step takes a file that waits, or finishes one that a worker has read. -/
theorem step?_cases {move : Move} (h : pool.step? o workers move = some pool') :
    ∃ before p after,
      (∃ k, pool.slots = before ++ ⟨p, .waiting⟩ :: after ∧
        pool' = ⟨pool.workspace, before ++ ⟨p, .inspected k (pool.workspace.inspect o p).1
          (pool.workspace.inspect o p).2⟩ :: after⟩) ∨
      ∃ k outcome new, pool.slots = before ++ ⟨p, .inspected k outcome new⟩ :: after ∧
        pool' = ⟨pool.workspace.put p new, before ++ ⟨p, .finished outcome⟩ :: after⟩ := by
  cases move with
  | read worker file =>
      simp only [step?] at h
      split at h
      · rename_i p hslot
        obtain ⟨before, after, hslots, -, hset⟩ := set_of_getElem? hslot
        split at h
        · refine ⟨before, p, after, Or.inl ⟨worker, hslots, ?_⟩⟩
          rw [← Option.some.inj h, hset]
        · cases h
      · cases h
  | finish file =>
      simp only [step?] at h
      split at h
      · rename_i p k outcome new hslot
        obtain ⟨before, after, hslots, -, hset⟩ := set_of_getElem? hslot
        refine ⟨before, p, after, Or.inr ⟨k, outcome, new, hslots, ?_⟩⟩
        rw [← Option.some.inj h, hset]
      · cases h

end Pool

/-! ## How much is left to do -/

/-- The number of steps that a file still takes. -/
def Slot.remaining (slot : Slot) : Nat :=
  match slot.stage with
  | .waiting => 2
  | .inspected _ _ _ => 1
  | .finished _ => 0

namespace Pool

variable {o : Options} {workers : Nat} {pool pool' : Pool}

/-- The number of steps that the run still takes. -/
def remaining (pool : Pool) : Nat := (pool.slots.map Slot.remaining).sum

theorem remaining_start (w : Workspace) (ps : List Path) :
    (start w ps).remaining = 2 * ps.length := by
  unfold remaining start
  induction ps with
  | nil => rfl
  | cons p ps ih =>
      have hfirst : (⟨p, .waiting⟩ : Slot).remaining = 2 := rfl
      rw [List.map_cons, List.map_cons, List.sum_cons, ih, hfirst, List.length_cons]
      omega

theorem remaining_step {move : Move} (h : pool.step? o workers move = some pool') :
    pool'.remaining + 1 = pool.remaining := by
  obtain ⟨before, p, after, ⟨k, hslots, rfl⟩ | ⟨k, outcome, new, hslots, rfl⟩⟩ := step?_cases h
  all_goals
    simp only [remaining, hslots, List.map_append, List.map_cons, List.sum_append, List.sum_cons,
      Slot.remaining]
    omega

theorem exec?_cons {move : Move} {moves : List Move}
    (h : pool.exec? o workers (move :: moves) = some pool') :
    ∃ next, pool.step? o workers move = some next ∧ next.exec? o workers moves = some pool' :=
  Option.bind_eq_some_iff.mp h

theorem remaining_exec {moves : List Move} (h : pool.exec? o workers moves = some pool') :
    pool'.remaining + moves.length = pool.remaining := by
  induction moves generalizing pool with
  | nil =>
      obtain rfl := Option.some.inj h
      rfl
  | cons move moves ih =>
      obtain ⟨next, hstep, hrest⟩ := exec?_cons h
      have hfirst := remaining_step hstep
      have hlater := ih hrest
      rw [List.length_cons]
      omega

theorem remaining_eq_zero_iff :
    pool.remaining = 0 ↔ ∀ slot ∈ pool.slots, ∃ outcome, slot.stage = .finished outcome := by
  unfold remaining
  rw [List.sum_eq_zero_iff_forall_eq_nat, List.forall_mem_map]
  apply forall₂_congr
  intro slot _
  unfold Slot.remaining
  cases slot.stage <;> simp

/-- Until all files are finished there is a step to make. -/
theorem exists_step (hworkers : 0 < workers) (h : pool.remaining ≠ 0) :
    ∃ move pool', pool.step? o workers move = some pool' := by
  by_cases hheld : ∃ slot ∈ pool.slots, ∃ k outcome new, slot.stage = .inspected k outcome new
  · -- a file that is read can be finished
    obtain ⟨⟨p, stage⟩, hmem, k, outcome, new, rfl⟩ := hheld
    obtain ⟨i, hi⟩ := List.mem_iff_getElem?.mp hmem
    exact ⟨.finish i, _, by simp only [step?, hi]; rfl⟩
  · -- otherwise no worker is busy, and the first one takes a file that waits
    have hidle : pool.isBusy 0 = false := by
      rw [isBusy, List.any_eq_false]
      intro slot hslot
      unfold Slot.isHeldBy
      split
      · rename_i k outcome new hstage
        exact absurd ⟨slot, hslot, k, outcome, new, hstage⟩ hheld
      · exact Bool.false_ne_true
    obtain ⟨⟨p, stage⟩, hmem, hstage⟩ : ∃ slot ∈ pool.slots,
        ¬∃ outcome, slot.stage = .finished outcome := by
      by_contra hall
      push Not at hall
      exact h (remaining_eq_zero_iff.mpr hall)
    obtain ⟨i, hi⟩ := List.mem_iff_getElem?.mp hmem
    cases stage with
    | waiting =>
        refine ⟨.read 0 i, ⟨pool.workspace, pool.slots.set i ⟨p, .inspected 0
          (pool.workspace.inspect o p).1 (pool.workspace.inspect o p).2⟩⟩, ?_⟩
        simp only [step?, hi, hworkers, hidle, decide_true, Bool.not_false, Bool.and_self, if_true]
    | inspected k outcome new => exact absurd ⟨_, hmem, k, outcome, new, rfl⟩ hheld
    | finished outcome => exact absurd ⟨outcome, rfl⟩ hstage

theorem over_iff (hworkers : 0 < workers) :
    (∀ move, pool.step? o workers move = none) ↔ pool.remaining = 0 := by
  constructor
  · intro hover
    by_contra h
    obtain ⟨move, next, hstep⟩ := exists_step (o := o) hworkers h
    rw [hover move] at hstep
    cases hstep
  · intro h move
    cases hstep : pool.step? o workers move with
    | none => rfl
    | some next =>
        have hless := remaining_step hstep
        omega

/-- Every schedule can be carried on until all files are finished. -/
theorem exists_exec (hworkers : 0 < workers) (pool : Pool) :
    ∃ moves pool', pool.exec? o workers moves = some pool' ∧ pool'.remaining = 0 := by
  induction hn : pool.remaining generalizing pool with
  | zero => exact ⟨[], pool, rfl, hn⟩
  | succ n ih =>
      have hleft : pool.remaining ≠ 0 := by omega
      obtain ⟨move, next, hstep⟩ := exists_step (o := o) hworkers hleft
      have hless := remaining_step hstep
      obtain ⟨moves, pool', hexec, hdone⟩ := ih next (by omega)
      refine ⟨move :: moves, pool', ?_, hdone⟩
      rw [exec?, hstep, Option.bind_some, hexec]

end Pool

/-! ## What the workers have done -/

/-- What the stage of a file says about the workspace `w` in which the run has started. -/
def Slot.Fits (w : Workspace) (o : Options) (slot : Slot) : Prop :=
  match slot.stage with
  | .waiting => True
  | .inspected _ outcome new => w.inspect o slot.path = (outcome, new)
  | .finished outcome => (w.inspect o slot.path).1 = outcome

/-- What has been written to a file. -/
def Slot.written (w : Workspace) (o : Options) (slot : Slot) : Option ByteArray :=
  match slot.stage with
  | .finished _ => (w.inspect o slot.path).2
  | _ => none

namespace Pool

/-- The state of a run over `ps` that started in the workspace `w`: what workers have read is what
stood there in the beginning, and the files that are finished are written. -/
structure Follows (w : Workspace) (o : Options) (ps : List Path) (pool : Pool) : Prop where
  paths : pool.slots.map Slot.path = ps
  fits : ∀ slot ∈ pool.slots, slot.Fits w o
  workspace : pool.workspace = w.putAll (pool.slots.map fun slot => (slot.path, slot.written w o))

variable {w : Workspace} {o : Options} {workers : Nat} {ps : List Path} {pool pool' : Pool}

theorem follows_start (w : Workspace) (o : Options) (ps : List Path) :
    (start w ps).Follows w o ps := by
  refine ⟨?_, ?_, ?_⟩
  · simp [start, Function.comp_def]
  · intro slot hslot
    obtain ⟨p, -, rfl⟩ := List.mem_map.mp hslot
    trivial
  · -- nothing is finished, so nothing is written
    show w = w.putAll _
    unfold start
    induction ps with
    | nil => rfl
    | cons p ps ih => exact ih

section

variable {w' : Workspace} {before after : List Slot} {p : Path} {stage : Stage}
  (hapart : ps.Pairwise w.Apart)
  (h : (⟨w', before ++ ⟨p, stage⟩ :: after⟩ : Pool).Follows w o ps)

include h

/-- A file goes on to another stage. -/
theorem Follows.advance {w'' : Workspace} {stage' : Stage}
    (hfits : (⟨p, stage'⟩ : Slot).Fits w o)
    (hworkspace : w'' = w.putAll ((before ++ ⟨p, stage'⟩ :: after).map fun slot =>
      (slot.path, slot.written w o))) :
    (⟨w'', before ++ ⟨p, stage'⟩ :: after⟩ : Pool).Follows w o ps := by
  refine ⟨?_, ?_, hworkspace⟩
  · rw [← h.paths]
    simp only [List.map_append, List.map_cons]
  · intro slot hslot
    rcases List.mem_append.mp hslot with hbefore | hlater
    · exact h.fits slot (List.mem_append_left _ hbefore)
    · rcases List.mem_cons.mp hlater with rfl | hafter
      · exact hfits
      · exact h.fits slot (List.mem_append_right _ (List.mem_cons_of_mem _ hafter))

include hapart

theorem Follows.apart_before : ∀ slot ∈ before, w.Apart slot.path p := by
  rw [← h.paths, List.map_append, List.map_cons] at hapart
  obtain ⟨-, -, hbefore⟩ := List.pairwise_append.mp hapart
  intro slot hslot
  exact hbefore _ (List.mem_map_of_mem hslot) _ List.mem_cons_self

theorem Follows.apart_after : ∀ slot ∈ after, w.Apart p slot.path := by
  rw [← h.paths, List.map_append, List.map_cons] at hapart
  obtain ⟨-, hafter, -⟩ := List.pairwise_append.mp hapart
  intro slot hslot
  exact (List.pairwise_cons.mp hafter).1 _ (List.mem_map_of_mem hslot)

/-- A file that is not finished is as it was in the beginning. -/
theorem Follows.inspect_eq (hunwritten : (⟨p, stage⟩ : Slot).written w o = none) :
    w'.inspect o p = w.inspect o p := by
  apply Workspace.inspect_congr
  have hworkspace : w' = _ := h.workspace
  rw [hworkspace]
  apply Workspace.content?_putAll
  intro x hx
  obtain ⟨slot, hslot, rfl⟩ := List.mem_map.mp hx
  rcases List.mem_append.mp hslot with hbefore | hlater
  · exact Or.inr (h.apart_before hapart slot hbefore)
  · rcases List.mem_cons.mp hlater with rfl | hafter
    · exact Or.inl hunwritten
    · exact Or.inr (h.apart_after hapart slot hafter).symm

/-- A file that is written last could have been written in its turn. -/
theorem Follows.put_eq (hunwritten : (⟨p, stage⟩ : Slot).written w o = none)
    (new : Option ByteArray) :
    w'.put p new = w.putAll (before.map (fun slot => (slot.path, slot.written w o)) ++
      (p, new) :: after.map fun slot => (slot.path, slot.written w o)) := by
  have hworkspace : w' = _ := h.workspace
  rw [List.map_append, List.map_cons, hunwritten, Workspace.putAll_append,
    Workspace.putAll_cons] at hworkspace
  have hlate : ∀ x ∈ after.map (fun slot => (slot.path, slot.written w o)),
      (w.putAll (before.map fun slot => (slot.path, slot.written w o))).Apart p x.1 := by
    intro x hx
    obtain ⟨slot, hslot, rfl⟩ := List.mem_map.mp hx
    exact (Workspace.apart_putAll _).mpr (h.apart_after hapart slot hslot)
  rw [Workspace.putAll_append, Workspace.putAll_cons, Workspace.put_putAll hlate, hworkspace]
  rfl

end

theorem Follows.step (hapart : ps.Pairwise w.Apart) (h : pool.Follows w o ps) {move : Move}
    (hstep : pool.step? o workers move = some pool') : pool'.Follows w o ps := by
  obtain ⟨before, p, after, ⟨k, hslots, rfl⟩ | ⟨k, outcome, new, hslots, rfl⟩⟩ :=
    step?_cases hstep
  all_goals
    obtain ⟨w', slots⟩ := pool
    obtain rfl : slots = _ := hslots
  · have hread : w'.inspect o p = w.inspect o p := h.inspect_eq hapart rfl
    refine h.advance (show Slot.Fits w o ⟨p, .inspected k _ _⟩ from hread.symm) ?_
    have hworkspace : w' = _ := h.workspace
    rw [List.map_append, List.map_cons] at hworkspace ⊢
    exact hworkspace
  · have hread : w.inspect o p = (outcome, new) := h.fits ⟨p, .inspected k outcome new⟩ (by simp)
    refine h.advance
      (show Slot.Fits w o ⟨p, .finished outcome⟩ from congrArg Prod.fst hread) ?_
    have hnew : (⟨p, .finished outcome⟩ : Slot).written w o = new := congrArg Prod.snd hread
    rw [List.map_append, List.map_cons, hnew]
    exact h.put_eq hapart rfl new

theorem Follows.exec (hapart : ps.Pairwise w.Apart) (h : pool.Follows w o ps) {moves : List Move}
    (hexec : pool.exec? o workers moves = some pool') : pool'.Follows w o ps := by
  induction moves generalizing pool with
  | nil =>
      obtain rfl := Option.some.inj hexec
      exact h
  | cons move moves ih =>
      obtain ⟨next, hstep, hrest⟩ := exec?_cons hexec
      exact ih (h.step hapart hstep) hrest

/-- When all files are finished, the reports and the workspace are those of a run of one file
after another. -/
theorem Follows.eq_formatFiles (hapart : ps.Pairwise w.Apart) (h : pool.Follows w o ps)
    (hdone : pool.remaining = 0) :
    pool.report.results = (w.formatFiles o ps).1 ∧ pool.workspace = (w.formatFiles o ps).2 := by
  obtain ⟨rfl, hfits, hworkspace⟩ := h
  rw [remaining_eq_zero_iff] at hdone
  rw [Workspace.reports_formatFiles o hapart, Workspace.workspace_formatFiles o hapart,
    List.map_map, List.map_map]
  constructor
  · apply List.filterMap_eq_map_iff_forall_eq_some.mpr
    intro slot hslot
    obtain ⟨outcome, hstage⟩ := hdone slot hslot
    have hfit := hfits slot hslot
    simp only [Slot.Fits, hstage] at hfit
    simp only [Slot.report?, hstage, Function.comp_apply, hfit]
  · rw [hworkspace]
    congr 1
    apply List.map_congr_left
    intro slot hslot
    obtain ⟨outcome, hstage⟩ := hdone slot hslot
    simp only [Slot.written, hstage, Function.comp_apply]

end Pool

/-! ## Other spellings of the inputs -/

namespace Workspace

variable {w : Workspace} (o : Options)

/-- What a path is formatted to depends on where it leads. -/
theorem formatAt_of_place? {p q : Path} (h : w.place? q = w.place? p) :
    (w.formatAt o q).1.outcome = (w.formatAt o p).1.outcome ∧
      (w.formatAt o q).2 = (w.formatAt o p).2 := by
  have hcontent : w.content? q = w.content? p := by rw [content?_eq, content?_eq, h]
  have hread : w.inspect o q = w.inspect o p := by simp only [inspect, hcontent]
  have hput : ∀ new, w.put q new = w.put p new := by
    intro new
    cases new with
    | none => rfl
    | some content => simp only [put, write, h]
  rw [formatAt_eq, formatAt_eq, hread, hput]
  exact ⟨rfl, rfl⟩

/-- Runs over spellings of the same paths that lead to the same places. -/
theorem formatFiles_congr {ps qs : List Path}
    (h : qs.map (fun p => (p.components, w.place? p)) =
      ps.map fun p => (p.components, w.place? p)) :
    (w.formatFiles o qs).1.map (fun r => (r.path.components, r.outcome)) =
        (w.formatFiles o ps).1.map (fun r => (r.path.components, r.outcome)) ∧
      (w.formatFiles o qs).2 = (w.formatFiles o ps).2 := by
  induction ps generalizing qs w with
  | nil =>
      obtain rfl := List.map_eq_nil_iff.mp h
      exact ⟨rfl, rfl⟩
  | cons p ps ih =>
      obtain ⟨q, qs, rfl, hfirst, hrest⟩ := List.map_eq_cons_iff.mp h
      obtain ⟨hcomponents, hplace⟩ := Prod.mk.inj hfirst
      obtain ⟨houtcome, hworkspace⟩ := formatAt_of_place? o hplace
      -- the first step leaves paths leading where they led
      have hlater : qs.map (fun r => (r.components, (w.formatAt o p).2.place? r)) =
          ps.map fun r => (r.components, (w.formatAt o p).2.place? r) := by
        simpa only [place?_formatAt] using hrest
      obtain ⟨hresults, hleft⟩ := ih hlater
      have hstep : ∀ r rs, w.formatFiles o (r :: rs) =
          ((w.formatAt o r).1 :: ((w.formatAt o r).2.formatFiles o rs).1,
            ((w.formatAt o r).2.formatFiles o rs).2) := fun _ _ => rfl
      rw [hstep, hstep, hworkspace]
      refine ⟨?_, hleft⟩
      rw [List.map_cons, List.map_cons, hresults, path_formatAt, path_formatAt, hcomponents,
        houtcome]

theorem pairwise_apart_congr {ps qs : List Path}
    (h : qs.map (fun p => (p.components, w.place? p)) =
      ps.map fun p => (p.components, w.place? p))
    (hapart : ps.Pairwise w.Apart) : qs.Pairwise w.Apart := by
  have hplaces : ∀ rs : List Path, rs.Pairwise w.Apart ↔
      (rs.map fun p => (p.components, w.place? p)).Pairwise fun a b => a.2 = b.2 → a.2 = none := by
    intro rs
    rw [List.pairwise_map]
    rfl
  rw [hplaces, h, ← hplaces]
  exact hapart

end Workspace

/-- However several workers share out the files, and in whatever order and how often the inputs
are given: a schedule comes to an end, and then each file has the report, and the workspace the
content, that formatting the files one after another gives. -/
theorem run_by_workers {w : Workspace} {o : Options} {inputs inputs' : List Path}
    (hapart : (w.select o inputs).Pairwise w.Apart)
    (hfiles : ∀ p ∈ w.select o inputs, (w.content? p).isSome = true)
    (hinputs : ∀ p, p ∈ inputs' ↔ p ∈ inputs)
    {workers : Nat} (hworkers : 0 < workers) {moves : List Move} {pool : Pool}
    (hexec : (Pool.start w (w.select o inputs')).exec? o workers moves = some pool) :
    moves.length ≤ 2 * (w.select o inputs').length ∧
    (∃ moves' pool', pool.exec? o workers moves' = some pool' ∧
      ∀ move, pool'.step? o workers move = none) ∧
    ((∀ move, pool.step? o workers move = none) →
      pool.report = (w.run o inputs').1 ∧ pool.workspace = (w.run o inputs').2) ∧
    (w.run o inputs').1.results.map (fun r => (r.path.components, r.outcome)) =
      (w.run o inputs).1.results.map (fun r => (r.path.components, r.outcome)) ∧
    (w.run o inputs').2 = (w.run o inputs).2 := by
  have hplaces : ∀ p ∈ w.select o inputs, (w.place? p).isSome = true := by
    intro p hp
    obtain ⟨content, hcontent⟩ := Option.isSome_iff_exists.mp (hfiles p hp)
    obtain ⟨a, ha, -⟩ := Workspace.content?_eq_some_iff.mp hcontent
    exact Option.isSome_iff_exists.mpr ⟨a, ha⟩
  -- other inputs select paths to the same places, in the same order
  have hselected := Workspace.place?_select hinputs hplaces
  have hapart' := Workspace.pairwise_apart_congr hselected hapart
  have hsteps := Pool.remaining_exec hexec
  rw [Pool.remaining_start] at hsteps
  refine ⟨by omega, ?_, ?_, Workspace.formatFiles_congr o hselected⟩
  · obtain ⟨moves', pool', hrest, hdone⟩ := Pool.exists_exec (o := o) hworkers pool
    exact ⟨moves', pool', hrest, (Pool.over_iff hworkers).mpr hdone⟩
  · intro hover
    have hfollows := (Pool.follows_start w o (w.select o inputs')).exec hapart' hexec
    obtain ⟨hreports, hworkspace⟩ :=
      hfollows.eq_formatFiles hapart' ((Pool.over_iff hworkers).mp hover)
    exact ⟨congrArg Report.mk hreports, hworkspace⟩

/-- The first worker holds the first file while the second one does the other two. -/
def interleaved : List Move :=
  [.read 0 0, .read 1 2, .finish 2, .read 1 1, .finish 1, .finish 0]

/-- The directory below is given twice, and first, so its file is spelled with two slashes. -/
theorem run_by_workers_mixedFiles :
    let w := mixedFiles.workspace
    let inputs : List Path := [⟨['.']⟩, ⟨"./sub//".toList⟩]
    let inputs' : List Path := [⟨"./sub//".toList⟩, ⟨['.']⟩, ⟨"./sub//".toList⟩]
    (w.select {} inputs).Pairwise w.Apart ∧
    (∀ p ∈ w.select {} inputs, (w.content? p).isSome = true) ∧
    w.select {} inputs' ≠ w.select {} inputs ∧
    ∃ pool, (Pool.start w (w.select {} inputs')).exec? {} 2 interleaved = some pool ∧
      pool.report = (w.run {} inputs').1 ∧ pool.workspace = (w.run {} inputs).2 ∧
      pool.workspace ≠ w := by
  intro w inputs inputs'
  have hapart : (w.select {} inputs).Pairwise w.Apart := by decide +kernel
  have hfiles : ∀ p ∈ w.select {} inputs, (w.content? p).isSome = true := by decide +kernel
  have hinputs : ∀ p, p ∈ inputs' ↔ p ∈ inputs := by
    intro p
    simp only [inputs, inputs', List.mem_cons, List.not_mem_nil, or_false]
    tauto
  obtain ⟨pool, hexec⟩ := Option.isSome_iff_exists.mp
    (show ((Pool.start w (w.select {} inputs')).exec? {} 2 interleaved).isSome = true by
      decide +kernel)
  have hover : ∀ move, pool.step? {} 2 move = none := by
    apply (Pool.over_iff Nat.two_pos).mpr
    have hsteps := Pool.remaining_exec hexec
    have hcount : (w.select {} inputs').length = 3 := by decide +kernel
    have hmoves : interleaved.length = 6 := rfl
    rw [Pool.remaining_start] at hsteps
    omega
  obtain ⟨-, -, hdone, -, hsame⟩ := run_by_workers hapart hfiles hinputs Nat.two_pos hexec
  obtain ⟨hreport, hworkspace⟩ := hdone hover
  refine ⟨hapart, hfiles, by decide +kernel, pool, hexec, hreport, hworkspace.trans hsame, ?_⟩
  rw [hworkspace]
  decide +kernel

end SqlLayout
