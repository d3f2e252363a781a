/-
# A pool that tasks share

Tasks rent dictionaries of one pool for the time of blocks.  Each block goes through five kinds of
steps, and the steps of different tasks come in any order: a dictionary is rented, the dictionary is
cleared, the block writes into it, the block ends and the dictionary is cleared, and the dictionary is
given back.  Renting and giving back look at the pool under a lock, so each of them is one step.

A task may rent within a block, so it has a stack of blocks, the innermost first, and only the
innermost one goes on; a block that runs may also write into the dictionaries of the blocks around
it.  A block may end by a failure, which is passed on after the dictionary has been given back.

Every step either rents, or alters the dictionary of one block, or gives one back (`Turn`).  Each of
these keeps the pool in order (`Sharing.Orderly`), and so does every schedule
(`Sharing.orderly_of_run`).  The invariant behind all of it is that the dictionaries that are rented,
those that are available and those that were dropped are together the ones that were made, each of them
once.

`Sharing.blocks_apart` is the main statement.  `Sharing.run_within` says that what evaluations do in one
go, `ScratchPool.within`, is the schedule of a task that is alone.
-/
import FormulaEvolution.Proofs.Sequence
import FormulaEvolution.ScratchPool
import Mathlib.Data.List.Perm.Basic

namespace FormulaEvolution
namespace ScratchPool

variable {α β : Type}

/-! ## 1. The pool, step by step -/

/-- Take a dictionary in again, if there is room. -/
def keep (p : ScratchPool β) (i : ScratchId) : ScratchPool β :=
  if p.available.length < p.maxSize then { p with available := i :: p.available } else p

/-- Giving back is clearing, and then taking in. -/
theorem giveBack_eq (p : ScratchPool β) (i : ScratchId) : p.giveBack i = (p.write i []).keep i :=
  rfl

theorem read_keep (p : ScratchPool β) (i j : ScratchId) : (p.keep i).read j = p.read j := by
  unfold keep
  split <;> rfl

theorem maxSize_keep (p : ScratchPool β) (i : ScratchId) : (p.keep i).maxSize = p.maxSize := by
  unfold keep
  split <;> rfl

theorem created_keep (p : ScratchPool β) (i : ScratchId) : (p.keep i).created = p.created := by
  unfold keep
  split <;> rfl

theorem rentals_keep (p : ScratchPool β) (i : ScratchId) : (p.keep i).rentals = p.rentals := by
  unfold keep
  split <;> rfl

/-- What is taken in fits. -/
theorem available_keep_le {p : ScratchPool β} (h : p.available.length ≤ p.maxSize) (i : ScratchId) :
    (p.keep i).available.length ≤ p.maxSize := by
  unfold keep
  split
  · exact ‹p.available.length < p.maxSize›
  · exact h

/-- What is taken in is what was there, and maybe one more. -/
theorem mem_available_keep {p : ScratchPool β} {i j : ScratchId} (h : j ∈ (p.keep i).available) :
    j = i ∨ j ∈ p.available := by
  unfold keep at h
  split at h
  · exact List.mem_cons.mp h
  · exact .inr h

theorem created_write (p : ScratchPool β) (i : ScratchId) (d : Dictionary β) :
    (p.write i d).created = p.created := List.length_set

/-- Writing into one dictionary leaves the others alone. -/
theorem read_write_other (p : ScratchPool β) {i j : ScratchId} (h : j ≠ i) (d : Dictionary β) :
    (p.write i d).read j = p.read j := by
  simp [read, write, List.getD_eq_getElem?_getD, List.getElem?_set_ne h.symm]

/-- Renting changes no dictionary; a new one is empty. -/
theorem read_rent (p : ScratchPool β) (j : ScratchId) : p.rent.2.read j = p.read j := by
  unfold rent
  split
  · rfl
  · rcases Nat.lt_trichotomy j p.contents.length with hlt | rfl | hgt
    · simp [read, List.getD_eq_getElem?_getD, List.getElem?_append_left hlt]
    · simp [read, List.getD_eq_getElem?_getD]
    · have hall : (p.contents ++ [[]]).length ≤ j := by
        simpa using Nat.succ_le_of_lt hgt
      simp [read, List.getD_eq_getElem?_getD, List.getElem?_eq_none hall,
        List.getElem?_eq_none (Nat.le_of_lt hgt)]

theorem maxSize_rent (p : ScratchPool β) : p.rent.2.maxSize = p.maxSize := by
  unfold rent
  split <;> rfl

theorem available_rent_subset (p : ScratchPool β) : p.rent.2.available ⊆ p.available := by
  unfold rent
  split
  · next i rest h =>
    rw [h]
    exact List.subset_cons_self i rest
  · exact List.Subset.refl _

theorem available_rent_le (p : ScratchPool β) :
    p.rent.2.available.length ≤ p.available.length := by
  unfold rent
  split
  · next i rest h =>
    rw [h]
    exact Nat.le_succ _
  · exact Nat.le_refl _

/-- A dictionary that was never made is read as empty. -/
theorem read_of_le (p : ScratchPool β) {i : ScratchId} (h : p.created ≤ i) : p.read i = [] := by
  simp [read, List.getD_eq_getElem?_getD, List.getElem?_eq_none (show p.contents.length ≤ i from h)]

/-- **Renting takes an available dictionary, or makes one.** -/
theorem rent_cases (p : ScratchPool β) :
    (p.available = p.rent.1 :: p.rent.2.available ∧ p.rent.2.created = p.created) ∨
      (p.rent.2.available = p.available ∧ p.rent.1 = p.created ∧
        p.rent.2.created = p.created + 1) := by
  unfold rent
  split
  · next h => exact .inl ⟨h, rfl⟩
  · refine .inr ⟨rfl, rfl, ?_⟩
    simp [created]

end ScratchPool

/-! ## 2. Tasks and their blocks -/

/-- How far a block has come. -/
inductive Stage (β : Type) where
  /-- Its dictionary is rented, and not cleared yet. -/
  | rented
  /-- It runs, and has made this of an empty dictionary. -/
  | running (own : Dictionary β)
  /-- It has ended, by a failure if there is one, and its dictionary is cleared. -/
  | ended (failure? : Option Failure)

/-- A block and its dictionary. -/
structure Block (β : Type) where
  item : ScratchId
  stage : Stage β

/-- A step of a task. -/
inductive Act (β : Type) where
  /-- Rent a dictionary for a new block. -/
  | rent
  /-- Clear it and begin the block. -/
  | clear
  /-- Write into the dictionary of the block at a level, the innermost at zero. -/
  | write (level : Nat) (update : Dictionary β → Dictionary β)
  /-- End the block, normally or by a failure, and clear its dictionary. -/
  | finish (failure? : Option Failure)
  /-- Give the dictionary back and pass the failure on. -/
  | giveBack

/-- Whether an act is a rent. -/
def Act.isRent {β : Type} : Act β → Bool
  | .rent => true
  | _ => false

/-- What the dictionary of a block holds if nobody else writes into it. -/
def Stage.content {β : Type} : Stage β → Dictionary β
  | .running own => own
  | _ => []

/-- A pool with the tasks that share it.  `tasks` are their stacks of blocks, `dropped` are the
dictionaries that were given back when there was no room, and `endings` tells which task ended a block,
and how, the last one first. -/
structure Sharing (β : Type) where
  pool : ScratchPool β
  tasks : List (List (Block β))
  dropped : List ScratchId := []
  endings : List (Nat × Option Failure) := []

namespace Sharing

variable {α β : Type}

/-- So many tasks without blocks. -/
def start (pool : ScratchPool β) (tasks : Nat) : Sharing β where
  pool
  tasks := List.replicate tasks []

/-- All blocks. -/
def blocks (s : Sharing β) : List (Block β) := s.tasks.flatten

/-- The dictionaries that are rented. -/
def rented (s : Sharing β) : List ScratchId := s.blocks.map (·.item)

/-- Whether code of a task runs: there is no block, or the innermost one runs. -/
def runs : List (Block β) → Bool
  | [] => true
  | ⟨_, .running _⟩ :: _ => true
  | _ => false

/-- One step of a task, where its innermost block is in the stage for it. -/
def step (s : Sharing β) (task : Nat) (act : Act β) : Option (Sharing β) :=
  match s.tasks[task]? with
  | none => none
  | some stack =>
    match act, stack with
    | .rent, stack =>
      if runs stack then
        some { s with
          pool := s.pool.rent.2
          tasks := s.tasks.set task (⟨s.pool.rent.1, .rented⟩ :: stack) }
      else none
    | .clear, ⟨i, .rented⟩ :: rest =>
      some { s with
        pool := s.pool.write i []
        tasks := s.tasks.set task (⟨i, .running []⟩ :: rest) }
    | .write level update, stack =>
      match runs stack, stack[level]? with
      | true, some ⟨i, .running own⟩ =>
        some { s with
          pool := s.pool.write i (update (s.pool.read i))
          tasks := s.tasks.set task (stack.set level ⟨i, .running (update own)⟩) }
      | _, _ => none
    | .finish failure?, ⟨i, .running _⟩ :: rest =>
      some { s with
        pool := s.pool.write i []
        tasks := s.tasks.set task (⟨i, .ended failure?⟩ :: rest) }
    | .giveBack, ⟨i, .ended failure?⟩ :: rest =>
      some { s with
        pool := s.pool.keep i
        tasks := s.tasks.set task rest
        dropped := if s.pool.available.length < s.pool.maxSize then s.dropped else i :: s.dropped
        endings := (task, failure?) :: s.endings }
    | _, _ => none

/-- A schedule: which task takes which step, one step after the other. -/
def run : List (Nat × Act β) → Sharing β → Option (Sharing β)
  | [], s => some s
  | (task, act) :: schedule, s => (s.step task act).bind (run schedule)

/-! ## 3. What a step does -/

/-- A part of a stack is exchanged, and all other blocks stay. -/
theorem perm_flatten_set {γ : Type} {piles : List (List γ)} {task : Nat} (above old : List γ)
    {below : List γ} (h : piles[task]? = some (above ++ old ++ below)) :
    ∃ rest, piles.flatten.Perm (old ++ rest) ∧
      ∀ new, (piles.set task (above ++ new ++ below)).flatten.Perm (new ++ rest) := by
  obtain ⟨before, after, rfl, rfl⟩ := split_of_getElem? h
  have hset : ∀ new, (before ++ (above ++ new ++ below) :: after).flatten.Perm
      (new ++ (before.flatten ++ above ++ (below ++ after.flatten))) := by
    intro new
    simp only [List.flatten_append, List.flatten_cons, List.append_assoc]
    rw [← List.append_assoc before.flatten above, ← List.append_assoc before.flatten above]
    exact List.perm_append_comm_assoc _ _ _
  refine ⟨_, hset old, fun new => ?_⟩
  rw [set_split]
  exact hset new

/-- What a step comes to for the pool and for all blocks together: a block is begun, or it alters its
own dictionary, or it is gone and its dictionary is given back. -/
inductive Turn (s s' : Sharing β) (task : Nat) : Act β → Prop where
  | rent (hblocks : s'.blocks.Perm (⟨s.pool.rent.1, .rented⟩ :: s.blocks))
      (hpool : s'.pool = s.pool.rent.2) (hdropped : s'.dropped = s.dropped)
      (hendings : s'.endings = s.endings) : Turn s s' task .rent
  | alter {act : Act β} {i : ScratchId} {stage stage' : Stage β} {rest : List (Block β)}
      (update : Dictionary β → Dictionary β) (hact : act.isRent = false)
      (hwas : s.blocks.Perm (⟨i, stage⟩ :: rest)) (hblocks : s'.blocks.Perm (⟨i, stage'⟩ :: rest))
      (hcontent : stage'.content = update stage.content)
      (hpool : s'.pool = s.pool.write i (update (s.pool.read i))) (hdropped : s'.dropped = s.dropped)
      (hendings : s'.endings = s.endings) : Turn s s' task act
  | giveBack {i : ScratchId} {failure? : Option Failure} {rest : List (Block β)}
      (hwas : s.blocks.Perm (⟨i, .ended failure?⟩ :: rest)) (hblocks : s'.blocks.Perm rest)
      (hpool : s'.pool = s.pool.keep i)
      (hdropped : s'.dropped =
        if s.pool.available.length < s.pool.maxSize then s.dropped else i :: s.dropped)
      (hendings : s'.endings = (task, failure?) :: s.endings) : Turn s s' task .giveBack

/-- **Every step is a turn.** -/
theorem turn_of_step {s s' : Sharing β} {task : Nat} {act : Act β} (h : s.step task act = some s') :
    Turn s s' task act := by
  unfold step at h
  split at h
  · cases h
  next stack hstack =>
  split at h
  next => -- rent
    split at h
    · cases h
      obtain ⟨rest, hwas, hset⟩ := perm_flatten_set [] [] hstack
      exact .rent ((hset [_]).trans (hwas.symm.cons _)) rfl rfl rfl
    · cases h
  next i rest => -- clear
    cases h
    obtain ⟨others, hwas, hset⟩ := perm_flatten_set [] [_] hstack
    exact .alter (fun _ => []) rfl hwas (hset [_]) rfl rfl rfl rfl
  next level update => -- write
    split at h
    next i own _ hlevel =>
      cases h
      obtain ⟨above, below, rfl, rfl⟩ := split_of_getElem? hlevel
      have hsplit : s.tasks[task]? = some (above ++ [⟨i, .running own⟩] ++ below) := by
        simpa using hstack
      obtain ⟨others, hwas, hset⟩ := perm_flatten_set above [_] hsplit
      have hlater := hset [⟨i, .running (update own)⟩]
      rw [List.append_assoc, List.singleton_append, ← set_split (c := ⟨i, .running own⟩)] at hlater
      exact .alter update rfl hwas hlater rfl rfl rfl rfl
    · cases h
  next failure? i own rest => -- finish
    cases h
    obtain ⟨others, hwas, hset⟩ := perm_flatten_set [] [_] hstack
    exact .alter (fun _ => []) rfl hwas (hset [_]) rfl rfl rfl rfl
  next i failure? rest => -- giveBack
    cases h
    obtain ⟨others, hwas, hset⟩ := perm_flatten_set [] [_] hstack
    exact .giveBack hwas (hset []) rfl rfl rfl
  · cases h

/-! ## 4. What a turn keeps -/

/-- A pool and its tasks in order: every dictionary that was made is rented, available or dropped, and
only one of these, only once; each block finds in its dictionary what it has made of an empty one; what
is available is empty and within the limit; and each rent has a block that goes on or has ended. -/
structure Orderly (s : Sharing β) : Prop where
  once : (s.rented ++ s.pool.available ++ s.dropped).Perm (List.range s.pool.created)
  own : ∀ b ∈ s.blocks, s.pool.read b.item = b.stage.content
  cleared : ∀ i ∈ s.pool.available, s.pool.read i = []
  room : s.pool.available.length ≤ s.pool.maxSize
  count : s.pool.rentals = s.blocks.length + s.endings.length

variable {s s' : Sharing β} {task : Nat} {act : Act β}

namespace Orderly

theorem nodup (h : s.Orderly) : (s.rented ++ s.pool.available ++ s.dropped).Nodup :=
  h.once.nodup_iff.mpr List.nodup_range

/-- A dictionary that is rented or available was made. -/
theorem lt_created (h : s.Orderly) {i : ScratchId} (hi : i ∈ s.rented ++ s.pool.available) :
    i < s.pool.created := List.mem_range.mp (h.once.subset (List.mem_append_left _ hi))

/-- A dictionary that is rented to one block is rented to no other block, and it is not available. -/
theorem apart (h : s.Orderly) {i : ScratchId} {stage : Stage β} {rest : List (Block β)}
    (hwas : s.blocks.Perm (⟨i, stage⟩ :: rest)) :
    (∀ b ∈ rest, b.item ≠ i) ∧ ∀ j ∈ s.pool.available, j ≠ i := by
  have hrented : s.rented.Perm (i :: rest.map (·.item)) := hwas.map _
  have hnodup : (i :: rest.map (·.item) ++ s.pool.available).Nodup :=
    (hrented.append_right _).nodup_iff.mp (List.nodup_append.mp h.nodup).1
  rw [List.cons_append, List.nodup_cons, List.mem_append, not_or] at hnodup
  obtain ⟨⟨hrest, havailable⟩, -⟩ := hnodup
  exact ⟨fun b hb he => hrest (he ▸ List.mem_map_of_mem hb), fun j hj he => havailable (he ▸ hj)⟩

/-- What is rented next is empty. -/
theorem read_next (h : s.Orderly) : s.pool.read s.pool.rent.1 = [] := by
  rcases s.pool.rent_cases with ⟨hfirst, -⟩ | ⟨-, hnew, -⟩
  · exact h.cleared _ (hfirst ▸ List.mem_cons_self)
  · exact s.pool.read_of_le (Nat.le_of_eq hnew.symm)

/-- **A rent keeps order.** -/
theorem rent (h : s.Orderly) (hblocks : s'.blocks.Perm (⟨s.pool.rent.1, .rented⟩ :: s.blocks))
    (hpool : s'.pool = s.pool.rent.2) (hdropped : s'.dropped = s.dropped)
    (hendings : s'.endings = s.endings) : s'.Orderly where
  once := by
    have hrented : s'.rented.Perm (s.pool.rent.1 :: s.rented) := hblocks.map _
    rw [hpool, hdropped]
    rcases s.pool.rent_cases with ⟨hfirst, hcreated⟩ | ⟨hsame, hnew, hcreated⟩
    · have hwas := h.once
      rw [hfirst] at hwas
      rw [hcreated]
      exact (((hrented.append_right _).trans List.perm_middle.symm).append_right _).trans hwas
    · rw [hsame, hcreated, List.range_succ]
      rw [hnew] at hrented
      exact (((hrented.append_right _).append_right _).trans (h.once.cons _)).trans
        (List.perm_append_singleton _ _).symm
  own b hb := by
    rw [hpool, ScratchPool.read_rent]
    rcases List.mem_cons.mp (hblocks.subset hb) with rfl | hb
    · exact h.read_next
    · exact h.own b hb
  cleared i hi := by
    rw [hpool, ScratchPool.read_rent]
    rw [hpool] at hi
    exact h.cleared i (s.pool.available_rent_subset hi)
  room := by
    rw [hpool, ScratchPool.maxSize_rent]
    exact Nat.le_trans s.pool.available_rent_le h.room
  count := by
    rw [hpool, ScratchPool.rentals_rent, hblocks.length_eq, hendings, h.count, List.length_cons]
    omega

section

variable {i : ScratchId} {rest : List (Block β)}

/-- **A block that alters its own dictionary keeps order.** -/
theorem alter {stage stage' : Stage β} {update : Dictionary β → Dictionary β} (h : s.Orderly)
    (hwas : s.blocks.Perm (⟨i, stage⟩ :: rest)) (hblocks : s'.blocks.Perm (⟨i, stage'⟩ :: rest))
    (hcontent : stage'.content = update stage.content)
    (hpool : s'.pool = s.pool.write i (update (s.pool.read i))) (hdropped : s'.dropped = s.dropped)
    (hendings : s'.endings = s.endings) : s'.Orderly := by
  obtain ⟨hothers, havailable⟩ := h.apart hwas
  have hself : (⟨i, stage⟩ : Block β) ∈ s.blocks := hwas.symm.subset List.mem_cons_self
  constructor
  case once =>
    have hrented : s'.rented.Perm s.rented := (hblocks.map _).trans (hwas.map (·.item)).symm
    rw [hpool, hdropped, ScratchPool.created_write]
    exact ((hrented.append_right _).append_right _).trans h.once
  case own =>
    intro b hb
    rw [hpool]
    rcases List.mem_cons.mp (hblocks.subset hb) with rfl | hb
    · have hmade : i < s.pool.created :=
        h.lt_created (List.mem_append_left _ (List.mem_map_of_mem hself))
      rw [ScratchPool.read_write_self hmade, h.own _ hself, hcontent]
    · rw [ScratchPool.read_write_other _ (hothers b hb)]
      exact h.own b (hwas.symm.subset (List.mem_cons_of_mem _ hb))
  case cleared =>
    intro j hj
    rw [hpool] at hj ⊢
    rw [ScratchPool.read_write_other _ (havailable j hj)]
    exact h.cleared j hj
  case room =>
    rw [hpool]
    exact h.room
  case count =>
    rw [hpool, hendings, hblocks.length_eq, List.length_cons, ← List.length_cons (a := ⟨i, stage⟩),
      ← hwas.length_eq]
    exact h.count

/-- **Giving a dictionary back keeps order.** -/
theorem giveBack {failure? : Option Failure} (h : s.Orderly)
    (hwas : s.blocks.Perm (⟨i, .ended failure?⟩ :: rest)) (hblocks : s'.blocks.Perm rest)
    (hpool : s'.pool = s.pool.keep i)
    (hdropped : s'.dropped =
      if s.pool.available.length < s.pool.maxSize then s.dropped else i :: s.dropped)
    (hendings : s'.endings = (task, failure?) :: s.endings) : s'.Orderly := by
  have hself : (⟨i, .ended failure?⟩ : Block β) ∈ s.blocks := hwas.symm.subset List.mem_cons_self
  constructor
  case once =>
    have hwas' : s.rented.Perm (i :: rest.map (·.item)) := hwas.map _
    have hrented : (i :: s'.rented).Perm s.rented := ((hblocks.map _).cons i).trans hwas'.symm
    have hwas := ((hrented.append_right _).append_right _).trans h.once
    rw [hpool, hdropped, ScratchPool.created_keep, ScratchPool.keep]
    split
    · exact (List.perm_middle.append_right _).trans hwas
    · exact List.perm_middle.trans hwas
  case own =>
    intro b hb
    rw [hpool, ScratchPool.read_keep]
    exact h.own b (hwas.symm.subset (List.mem_cons_of_mem _ (hblocks.subset hb)))
  case cleared =>
    intro j hj
    rw [hpool] at hj ⊢
    rw [ScratchPool.read_keep]
    rcases ScratchPool.mem_available_keep hj with rfl | hj
    · exact h.own _ hself
    · exact h.cleared j hj
  case room =>
    rw [hpool, ScratchPool.maxSize_keep]
    exact ScratchPool.available_keep_le h.room i
  case count =>
    rw [hpool, ScratchPool.rentals_keep, h.count, hwas.length_eq, hblocks.length_eq, hendings,
      List.length_cons, List.length_cons]
    omega

end

end Orderly

/-- **Every step keeps order.** -/
theorem Orderly.step (h : s.Orderly) (hstep : s.step task act = some s') : s'.Orderly := by
  cases turn_of_step hstep with
  | rent hblocks hpool hdropped hendings => exact h.rent hblocks hpool hdropped hendings
  | alter update _ hwas hblocks hcontent hpool hdropped hendings =>
    exact h.alter hwas hblocks hcontent hpool hdropped hendings
  | giveBack hwas hblocks hpool hdropped hendings =>
    exact h.giveBack hwas hblocks hpool hdropped hendings

/-- A step counts if it is a rent, and the limit of the pool stays. -/
theorem rentals_step (hstep : s.step task act = some s') :
    s'.pool.rentals = s.pool.rentals + (if act.isRent then 1 else 0) ∧
      s'.pool.maxSize = s.pool.maxSize := by
  cases turn_of_step hstep with
  | rent _ hpool _ _ =>
    rw [hpool]
    exact ⟨s.pool.rentals_rent, s.pool.maxSize_rent⟩
  | alter _ hact _ _ _ hpool _ _ =>
    rw [hpool, hact]
    exact ⟨rfl, rfl⟩
  | giveBack _ _ hpool _ _ =>
    rw [hpool]
    exact ⟨s.pool.rentals_keep _, s.pool.maxSize_keep _⟩

/-! ## 5. Schedules -/

/-- So many tasks without blocks, at a pool that nothing was rented from, are in order. -/
theorem orderly_start {pool : ScratchPool β} (hcontents : pool.contents = [])
    (havailable : pool.available = []) (hrentals : pool.rentals = 0) (tasks : Nat) :
    (start pool tasks).Orderly := by
  have hblocks : (start pool tasks).blocks = [] := List.flatten_replicate_nil
  have hpool : (start pool tasks).pool = pool := rfl
  have hdropped : (start pool tasks).dropped = [] := rfl
  have hendings : (start pool tasks).endings = [] := rfl
  constructor
  case once => simp [rented, hblocks, hpool, hdropped, havailable, ScratchPool.created, hcontents]
  case own => simp [hblocks]
  case cleared => simp [hpool, havailable]
  case room => simp [hpool, havailable]
  case count => simp [hblocks, hpool, hendings, hrentals]

/-- **Every schedule keeps order**, and counts its rents. -/
theorem orderly_of_run : ∀ {schedule : List (Nat × Act β)} {s s' : Sharing β}, s.Orderly →
    run schedule s = some s' → s'.Orderly ∧
      s'.pool.rentals = s.pool.rentals + schedule.countP (·.2.isRent) ∧
      s'.pool.maxSize = s.pool.maxSize
  | [], s, _, h, hrun => by
    cases hrun
    exact ⟨h, rfl, rfl⟩
  | (task, act) :: schedule, s, s', h, hrun => by
    obtain ⟨s₁, hstep, hrest⟩ := Option.bind_eq_some_iff.mp hrun
    obtain ⟨hrentals, hmaxSize⟩ := rentals_step hstep
    obtain ⟨horderly, hrentals', hmaxSize'⟩ := orderly_of_run (h.step hstep) hrest
    refine ⟨horderly, ?_, hmaxSize'.trans hmaxSize⟩
    rw [hrentals', hrentals, List.countP_cons, Nat.add_assoc, Nat.add_comm (List.countP _ _)]

/-- No task waits for another one: a task always has a step that it can take. -/
theorem exists_step {stack : List (Block β)} (h : s.tasks[task]? = some stack) :
    ∃ act, (s.step task act).isSome = true := by
  match stack with
  | [] => exact ⟨.rent, by simp [step, h, runs]⟩
  | ⟨i, .rented⟩ :: rest => exact ⟨.clear, by simp [step, h]⟩
  | ⟨i, .running own⟩ :: rest => exact ⟨.finish none, by simp [step, h]⟩
  | ⟨i, .ended failure?⟩ :: rest => exact ⟨.giveBack, by simp [step, h]⟩

/-- A task that is alone does what `within` does, whichever way its block ends. -/
theorem run_within (p : ScratchPool β) (block : Dictionary β → α × Dictionary β)
    (failure? : Option Failure) : ∃ s, run [(0, .rent), (0, .clear),
      (0, .write 0 fun d => (block d).2), (0, .finish failure?), (0, .giveBack)] (start p 1) = some s ∧
        s.pool = (p.within block).2 :=
  ⟨_, rfl, rfl⟩

/-- **Blocks do not meet in the pool that they share.**  Whatever the limit of a new pool, the number
of tasks and the order of their steps: no dictionary is rented to two blocks at once, nor rented and
available; a block that begins has an empty dictionary, and a block that runs finds there what it has
made of it itself; all that is available is empty and within the limit; the rentals are the rents; and
the dictionaries made are those that are rented, those that are available and those that were dropped. -/
theorem blocks_apart {maxSize : Int} (h : 1 ≤ maxSize) (tasks : Nat) : ∃ pool : ScratchPool β,
    ScratchPool.make maxSize = .ok pool ∧ ∀ (schedule : List (Nat × Act β)) (s : Sharing β),
      run schedule (start pool tasks) = some s →
        (s.rented ++ s.pool.available).Nodup ∧
        (∀ b ∈ s.blocks, s.pool.read b.item = b.stage.content) ∧
        (∀ i ∈ s.pool.available, s.pool.read i = []) ∧
        (s.pool.available.length : Int) ≤ maxSize ∧
        s.pool.rentals = schedule.countP (·.2.isRent) ∧
        s.pool.created = s.rented.length + s.pool.available.length + s.dropped.length := by
  have hpositive : 0 < maxSize.toNat := by omega
  refine ⟨{ maxSize := maxSize.toNat, positive := hpositive }, dif_pos hpositive, ?_⟩
  intro schedule s hrun
  obtain ⟨horderly, hrentals, hmaxSize⟩ := orderly_of_run (orderly_start rfl rfl rfl tasks) hrun
  refine ⟨(List.nodup_append.mp horderly.nodup).1, horderly.own, horderly.cleared, ?_, ?_, ?_⟩
  · have hroom := horderly.room
    rw [hmaxSize] at hroom
    exact Int.le_toNat (by omega) |>.mp hroom
  · rw [hrentals]
    exact Nat.zero_add _
  · rw [← List.length_append, ← List.length_append, horderly.once.length_eq, List.length_range]

/-- Two tasks at a pool that keeps one dictionary: the block of the second one fails while that of the
first one runs, and what the first one gives back is dropped. -/
def crowded : List (Nat × Act Nat) :=
  [(0, .rent), (0, .clear), (1, .rent), (0, .write 0 (Dictionary.bind "x" 1)), (1, .clear),
    (1, .write 0 (Dictionary.bind "y" 2)), (1, .finish (some (.absentKey "k"))), (1, .giveBack),
    (0, .write 0 (Dictionary.bind "z" 3)), (0, .finish none), (0, .giveBack), (0, .rent)]

theorem crowded_apart : (1 : Int) ≤ 1 ∧ ∃ (pool : ScratchPool Nat) (s : Sharing Nat),
    ScratchPool.make 1 = .ok pool ∧ run crowded (start pool 2) = some s ∧
      (s.rented ++ s.pool.available).Nodup ∧
      (∀ b ∈ s.blocks, s.pool.read b.item = b.stage.content) ∧
      (∀ i ∈ s.pool.available, s.pool.read i = []) ∧
      (s.pool.available.length : Int) ≤ 1 ∧
      s.pool.rentals = crowded.countP (·.2.isRent) ∧
      s.pool.created = s.rented.length + s.pool.available.length + s.dropped.length ∧
      s.rented = [1] ∧ s.dropped = [0] ∧ s.endings = [(0, none), (1, some (.absentKey "k"))] := by
  obtain ⟨pool, hpool, hall⟩ := @blocks_apart Nat _ (Int.le_refl 1) 2
  cases hpool
  obtain ⟨hnodup, hown, hcleared, hroom, hrentals, hcreated⟩ := hall crowded _ rfl
  exact ⟨Int.le_refl 1, _, _, rfl, rfl, hnodup, hown, hcleared, hroom, hrentals, hcreated, rfl, rfl,
    rfl⟩

end Sharing
end FormulaEvolution
