/-
Blocks of memory that are allocated and released.

The allocator knows the blocks that are live.  To release or to use one that is
not live is a fault.  Who may release a block is said with multisets: the live
blocks are the sum of what each owner holds, so that no block has two owners and
none is without one.  An owner can then use and release what it holds, whatever
the others hold.
-/

import Mathlib

namespace Allocator

variable {φ β : Type} [DecidableEq β]

/-- `program` is a fault of the program that has nothing to do with its memory. -/
inductive MemFault (φ β : Type)
  | program (fault : φ)
  | useAfterFree (block : β)
  | badFree (block : β)
  deriving DecidableEq, Repr

def program {α : Type} : Except φ α → Except (MemFault φ β) α
  | .ok value => .ok value
  | .error fault => .error (.program fault)

def allocate (live : Finset β) (blocks : List β) : Finset β := blocks.foldr insert live

def use (live : Finset β) (block : β) : Except (MemFault φ β) Unit :=
  if block ∈ live then .ok () else .error (.useAfterFree block)

def release (live : Finset β) (block : β) : Except (MemFault φ β) (Finset β) :=
  if block ∈ live then .ok (live.erase block) else .error (.badFree block)

omit [DecidableEq β] in
theorem program_eq_ok {α : Type} {run : Except φ α} {value : α}
    (returned : (program run : Except (MemFault φ β) α) = .ok value) : run = .ok value := by
  cases run with
  | error fault => cases returned
  | ok result =>
      cases returned
      rfl

omit [DecidableEq β] in
theorem program_ok {α : Type} (value : α) :
    (program (.ok value : Except φ α) : Except (MemFault φ β) α) = .ok value := rfl

omit [DecidableEq β] in
theorem program_bind {α γ : Type} (run : Except φ α) (next : α → Except φ γ) :
    (program (run >>= next) : Except (MemFault φ β) γ) =
      program run >>= fun value => program (next value) := by
  cases run with
  | error fault => rfl
  | ok value => rfl

section

variable {live : Finset β} {block : β} {rest : Multiset β}

omit [DecidableEq β] in
theorem mem_of_held (held : live.val = {block} + rest) : block ∈ live := by
  rw [← Finset.mem_val, held]
  exact Multiset.mem_add.mpr (.inl (Multiset.mem_singleton_self block))

theorem use_of_held (held : live.val = {block} + rest) :
    (use live block : Except (MemFault φ β) Unit) = .ok () :=
  if_pos (mem_of_held held)

theorem release_of_held (held : live.val = {block} + rest) :
    ∃ after, (release live block : Except (MemFault φ β) (Finset β)) = .ok after ∧
      after.val = rest := by
  refine ⟨live.erase block, if_pos (mem_of_held held), ?_⟩
  rw [Finset.erase_val, held, Multiset.singleton_add, Multiset.erase_cons_head]

theorem allocate_val {blocks : List β} (nodup : blocks.Nodup)
    (fresh : ∀ block ∈ blocks, block ∉ live) :
    (allocate live blocks).val = blocks + live.val := by
  induction blocks with
  | nil => exact (zero_add live.val).symm
  | cons block blocks ih =>
      obtain ⟨notLater, laterNodup⟩ := List.nodup_cons.mp nodup
      have later := ih laterNodup fun other member => fresh other (List.mem_cons_of_mem _ member)
      have unused : block ∉ allocate live blocks := by
        rw [← Finset.mem_val, later, Multiset.mem_add]
        rintro (contrary | contrary)
        · exact notLater (Multiset.mem_coe.mp contrary)
        · exact fresh block List.mem_cons_self contrary
      change (insert block (allocate live blocks)).val = _
      rw [Finset.insert_val_of_notMem unused, later, ← Multiset.cons_coe, Multiset.cons_add]

omit [DecidableEq β] in
theorem notMem_of_held {left right : Multiset β} (held : live.val = left + right)
    (member : block ∈ left) : block ∉ right :=
  fun other => Multiset.disjoint_left.mp
    (Multiset.nodup_add.mp (held ▸ live.nodup)).2.2 member other

end

/-! ### Many owners -/

variable {ι γ : Type} [DecidableEq ι] [AddCommMonoid γ]

theorem sum_exchange {owners : Finset ι} {owner : ι} (member : owner ∈ owners) (share : ι → γ)
    (new : γ) :
    ∃ others, ∑ other ∈ owners, share other = share owner + others ∧
      ∑ other ∈ owners, Function.update share owner new other = new + others := by
  refine ⟨∑ other ∈ owners.erase owner, share other, ?_, ?_⟩
  · exact (Finset.add_sum_erase owners share member).symm
  · rw [Finset.sum_update_of_mem member, Finset.sdiff_singleton_eq_erase]

end Allocator
