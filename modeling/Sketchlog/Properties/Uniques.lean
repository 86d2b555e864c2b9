import Sketchlog.Properties.CountMin

/-!
# HyperLogLog state is a function of the set of items

A register is the greatest rank among the added items whose hash falls into it, whatever was added
twice, in which order, and in which sketches that were merged later (`register_ofItems`). So histories
with the same set of items lead to the same registers.
-/

namespace Sketchlog

open Imperative History

/-! ## The registers of a history

A register is the greatest rank of the items with its index. This is a maximum over a set, so order
and repetition of the items do not matter. -/

namespace RegisterMax

variable {K : Type} {p : ℕ} (item : K → RegisterMax p)

/-- The content of a sketch that was given the items of a history. -/
def ofItems (h : List K) : RegisterMax p := (h.map item).sum

theorem ofItems_cons (x : K) (h : List K) : ofItems item (x :: h) = item x + ofItems item h := by
  rw [ofItems, List.map_cons, List.sum_cons]
  rfl

/-- A register is the least bound of the items' ranks in it. -/
theorem register_ofItems_le_iff (h : List K) (i : Fin (2 ^ p)) (n : ℕ) :
    (ofItems item h).register i ≤ n ↔ ∀ x ∈ h, (item x).register i ≤ n := by
  induction h with
  | nil => exact iff_of_true (Nat.zero_le n) fun x hx => absurd hx List.not_mem_nil
  | cons x h ih =>
    rw [ofItems_cons, add_register, max_le_iff, ih, List.forall_mem_cons]

/-- **Only the set of items matters.** -/
theorem ofItems_congr {h k : List K} (hset : ∀ x, x ∈ h ↔ x ∈ k) : ofItems item h = ofItems item k := by
  refine RegisterMax.ext (funext fun i => eq_of_forall_ge_iff fun n => ?_)
  rw [register_ofItems_le_iff, register_ofItems_le_iff]
  exact forall_congr' fun x => imp_congr_left (hset x)

theorem ofItems_append (h k : List K) : ofItems item (h ++ k) = ofItems item h + ofItems item k := by
  rw [ofItems, List.map_append, List.sum_append]
  rfl

end RegisterMax

/-- The greatest rank of the items whose hash falls into register `i`, 0 if there is none. -/
def greatestRank {K : Type} (hash : K → ℕ) (p : ℕ) (h : List K) (i : ℕ) : ℕ :=
  ((h.filter fun x => HyperLogLog.indexOf p (hash x) = i).map fun x =>
    HyperLogLog.rankOf p (hash x)).foldr max 0

/-- The greatest rank is the least bound of the ranks. -/
theorem greatestRank_le_iff {K : Type} (hash : K → ℕ) (p : ℕ) (h : List K) (i n : ℕ) :
    greatestRank hash p h i ≤ n
      ↔ ∀ x ∈ h, HyperLogLog.indexOf p (hash x) = i → HyperLogLog.rankOf p (hash x) ≤ n := by
  unfold greatestRank
  induction h with
  | nil => simp
  | cons x h ih =>
    rw [List.filter_cons, List.forall_mem_cons]
    by_cases hx : HyperLogLog.indexOf p (hash x) = i
    · rw [if_pos (decide_eq_true hx), List.map_cons, List.foldr_cons, max_le_iff, ih]
      exact and_congr_left fun _ => (imp_iff_right hx).symm
    · rw [if_neg (by simpa using hx), ih]
      exact (and_iff_right fun hi => absurd hi hx).symm

/-- What the items of a history say of the state of a sketch, in one backend. -/
structure UniquesLaws {Sketch Item : Type} (History : Sketch → List Item → Prop)
    (merge : Sketch → Sketch → Sketch → Prop) (registers : Sketch → List ℕ) (hash : Item → ℕ) (p : ℕ) :
    Prop where
  set_determines : ∀ s s' h h', History s h → History s' h' → (∀ x, x ∈ h ↔ x ∈ h') →
    registers s = registers s'
  register_eq : ∀ s h, History s h →
    registers s = (List.range (2 ^ p)).map (greatestRank hash p h)
  merge_eq_union : ∀ a b u h k l, History a h → History b k → History u l →
    (∀ x, x ∈ l ↔ x ∈ h ∨ x ∈ k) → merge a b u

/-! ## The Python sketch -/

namespace HyperLogLog

/-- The sketches built by accepted adds and merges, with the items added. -/
def History (p : ℕ) : HyperLogLog → List UniqueItem → Prop :=
  Built (empty p) (fun s x s' => (add x).run s = .ok () s')
    fun s o s' => StreamLog.mergeUniques s o = s'

/-- The hash of an item. -/
def itemHash (item : UniqueItem) : ℕ := hashBytes (itemBytes item)

variable {p : ℕ} {s : HyperLogLog} {h : List UniqueItem}

theorem History.eq (hp : p ≤ 64) (hb : History p s h) :
    s = ofRegisters (RegisterMax.ofItems (itemMax p hp) h) := by
  refine (Built.sum (R := fun s a => s = ofRegisters a) (P := fun _ => True) (itemMax p hp)
    (ofRegisters_zero p).symm ?_ ?_ hb).2
  · rintro _ a x s' rfl hx
    exact ⟨trivial, ((add_guarded hp a x).of_run_ok hx).2⟩
  · rintro _ _ s' a b rfl rfl hm
    rw [← hm, StreamLog.mergeUniques_ofRegisters]

theorem registers_ofItems (hp : p ≤ 64) (h : List UniqueItem) :
    (ofRegisters (RegisterMax.ofItems (itemMax p hp) h)).registers
      = (List.range (2 ^ p)).map (greatestRank itemHash p h) := by
  have hregister : ∀ i : Fin (2 ^ p), (RegisterMax.ofItems (itemMax p hp) h).register i
      = greatestRank itemHash p h i := by
    intro i
    refine eq_of_forall_ge_iff fun n => ?_
    rw [RegisterMax.register_ofItems_le_iff, greatestRank_le_iff]
    refine forall₂_congr fun x _ => ?_
    -- the one item raises the register of its hash only
    show (if i = (⟨indexOf p (itemHash x), _⟩ : Fin (2 ^ p)) then rankOf p (itemHash x) else 0) ≤ n
      ↔ _
    by_cases hi : indexOf p (itemHash x) = i
    · rw [if_pos (Fin.ext hi.symm), imp_iff_right hi]
    · rw [if_neg fun h => hi (congrArg Fin.val h).symm]
      exact iff_of_true (Nat.zero_le n) fun h => absurd h hi
  show List.ofFn _ = _
  rw [List.ofFn_eq_map, ← List.map_coe_finRange_eq_range, List.map_map]
  exact List.map_congr_left fun i _ => hregister i

theorem uniquesLaws (hp : p ≤ 64) :
    UniquesLaws (History p) (fun a b u => StreamLog.mergeUniques a b = u) registers itemHash p where
  set_determines := by
    intro s s' h h' hs hs' hset
    rw [hs.eq hp, hs'.eq hp, RegisterMax.ofItems_congr _ hset]
  register_eq := by
    intro s h hs
    rw [hs.eq hp, registers_ofItems]
  merge_eq_union := by
    intro a b u h k l ha hb hu hset
    rw [ha.eq hp, hb.eq hp, hu.eq hp, StreamLog.mergeUniques_ofRegisters, ← RegisterMax.ofItems_append]
    exact congrArg ofRegisters (RegisterMax.ofItems_congr _ fun x => by rw [List.mem_append, hset])

end HyperLogLog

/-! ## The C++ sketch -/

namespace Cpp.HyperLogLog

/-- The sketches built by adds and merges, with the byte strings added. -/
def History (p : ℕ) : HyperLogLog → List (List UInt8) → Prop :=
  Built (empty p) (fun s x s' => (add x).run s = .ok () s') fun s o s' => (merge o).run s = .ok () s'

variable {p : ℕ} {s : HyperLogLog} {h : List (List UInt8)}

theorem History.eq (hp4 : 4 ≤ p) (hp18 : p ≤ 18) (hb : History p s h) :
    s = ofRegisters (RegisterMax.ofItems (bytesMax p (hp18.trans (by norm_num))) h) := by
  refine (Built.sum (R := fun s a => s = ofRegisters a) (P := fun _ => True)
    (bytesMax p (hp18.trans (by norm_num))) (ofRegisters_zero p).symm ?_ ?_ hb).2
  · rintro _ a x s' rfl hx
    rw [run_add hp4 hp18] at hx
    cases hx
    exact ⟨trivial, rfl⟩
  · rintro _ _ s' a b rfl rfl hm
    rw [run_merge] at hm
    cases hm
    rfl

/-- The registers are those of the Python sketch that was given the same bytes. -/
theorem registers_ofItems (hp : p ≤ 64) (h : List (List UInt8)) :
    (ofRegisters (RegisterMax.ofItems (bytesMax p hp) h)).registers
      = (List.range (2 ^ p)).map (greatestRank (fun data => (hashBytes data).toNat) p h) := by
  have hitems : RegisterMax.ofItems (bytesMax p hp) h
      = RegisterMax.ofItems (Sketchlog.HyperLogLog.itemMax p hp)
        (h.map fun data => .key (.bytes data)) := by
    rw [RegisterMax.ofItems, RegisterMax.ofItems, List.map_map]
    rfl
  have hpy := Sketchlog.HyperLogLog.registers_ofItems hp (h.map fun data => .key (.bytes data))
  rw [← hitems] at hpy
  refine Eq.trans hpy (List.map_congr_left fun i _ => eq_of_forall_ge_iff fun n => ?_)
  rw [greatestRank_le_iff, greatestRank_le_iff, List.forall_mem_map]
  refine forall₂_congr fun data _ => ?_
  rw [hashBytes_toNat data]
  rfl

theorem uniquesLaws (hp4 : 4 ≤ p) (hp18 : p ≤ 18) :
    UniquesLaws (History p) (fun a b u => (merge b).run a = .ok () u) registers
      (fun data => (hashBytes data).toNat) p where
  set_determines := by
    intro s s' h h' hs hs' hset
    rw [hs.eq hp4 hp18, hs'.eq hp4 hp18, RegisterMax.ofItems_congr _ hset]
  register_eq := by
    intro s h hs
    rw [hs.eq hp4 hp18, registers_ofItems]
  merge_eq_union := by
    intro a b u h k l ha hb hu hset
    rw [ha.eq hp4 hp18, hb.eq hp4 hp18, hu.eq hp4 hp18, run_merge, ← RegisterMax.ofItems_append]
    refine congrArg (EStateM.Result.ok () ∘ ofRegisters) ?_
    exact RegisterMax.ofItems_congr _ fun x => by rw [List.mem_append, hset]

end Cpp.HyperLogLog

/-- **HyperLogLog state is a function of the set of items**, in the Python backend and in the C++
backend: registers are the greatest ranks, so they depend on the set of items alone, and merging is
the union. -/
theorem uniques_of_items (p : ℕ) (hp4 : 4 ≤ p) (hp18 : p ≤ 18) :
    UniquesLaws (HyperLogLog.History p) (fun a b u => StreamLog.mergeUniques a b = u)
        HyperLogLog.registers HyperLogLog.itemHash p
      ∧ UniquesLaws (Cpp.HyperLogLog.History p) (fun a b u =>
        (Cpp.HyperLogLog.merge b).run a = .ok () u)
        Cpp.HyperLogLog.registers (fun data => (Cpp.HyperLogLog.hashBytes data).toNat) p :=
  ⟨HyperLogLog.uniquesLaws (hp18.trans (by norm_num)), Cpp.HyperLogLog.uniquesLaws hp4 hp18⟩

/-- One item added twice, and added once, at the least precision. -/
theorem uniques_of_items_twice :
    ∃ s s', HyperLogLog.History 4 s [.other "a", .other "a"] ∧ HyperLogLog.History 4 s' [.other "a"]
      ∧ s.registers = s'.registers := by
  have hadd : ∀ s : HyperLogLog, (HyperLogLog.add (.other "a")).run s
      = .ok () (after (HyperLogLog.add (.other "a")) s) := fun _ => rfl
  have honce : HyperLogLog.History 4 (after (HyperLogLog.add (.other "a")) (.empty 4))
      ([] ++ [.other "a"]) := Built.add Built.start (hadd _)
  have htwice := Built.add honce (hadd _)
  refine ⟨_, _, htwice, honce, ?_⟩
  refine (uniques_of_items 4 (by decide) (by decide)).1.set_determines _ _ _ _ htwice honce fun x => ?_
  simp

end Sketchlog
