import Mathlib.Data.List.Forall2
import Mathlib.Order.Nat

/-!
# Cutting a sequence into chunks

Items come one after the other, and a new chunk is begun when the last one is full. The chunks hold
the sequence (`flatten_cut`), none is empty or over the limit, and all but the last are full
(`cut_sizes`).

A program that fills three collections from one such sequence is compared with `cut` step by step
(`foldl_simulates`): its chunks then hold the parts of the sequence (`View.Cuts`).
-/

namespace Chunks

variable {ι κ σ τ α β γ : Type*}

/-- One item more, for the chunks that are done and the one that is being filled. -/
def step (limit : ℕ) (s : List (List ι) × List ι) (e : ι) : List (List ι) × List ι :=
  if limit ≤ s.2.length then (s.1 ++ [s.2], [e]) else (s.1, s.2 ++ [e])

/-- The chunks at the end. -/
def close (s : List (List ι) × List ι) : List (List ι) := if s.2 = [] then s.1 else s.1 ++ [s.2]

def cut (limit : ℕ) (items : List ι) : List (List ι) := close (items.foldl (step limit) ([], []))

/-- The items so far. -/
def written (s : List (List ι) × List ι) : List ι := s.1.flatten ++ s.2

theorem written_step (limit : ℕ) (s : List (List ι) × List ι) (e : ι) :
    written (step limit s e) = written s ++ [e] := by
  unfold step written
  split
  · rw [List.flatten_append, List.flatten_singleton]
  · rw [List.append_assoc]

theorem written_foldl (limit : ℕ) (s : List (List ι) × List ι) (items : List ι) :
    written (items.foldl (step limit) s) = written s ++ items := by
  induction items generalizing s with
  | nil => exact (List.append_nil _).symm
  | cons e items ih => rw [List.foldl_cons, ih, written_step, List.append_assoc, List.singleton_append]

theorem flatten_close (s : List (List ι) × List ι) : (close s).flatten = written s := by
  unfold close written
  split
  · next h => rw [h, List.append_nil]
  · rw [List.flatten_append, List.flatten_singleton]

/-- The chunks hold the sequence. -/
theorem flatten_cut (limit : ℕ) (items : List ι) : (cut limit items).flatten = items := by
  rw [cut, flatten_close, written_foldl]
  rfl

/-- The chunks that are done are full, and the last one is not over the limit. -/
structure Filled (limit : ℕ) (s : List (List ι) × List ι) : Prop where
  full : ∀ chunk ∈ s.1, chunk.length = limit
  current : s.2.length ≤ limit

theorem Filled.step {limit : ℕ} (hlimit : 0 < limit) {s : List (List ι) × List ι}
    (h : Filled limit s) (e : ι) :
    Filled limit (step limit s e) := by
  have hcurrent := h.current
  unfold Chunks.step
  split
  · next hfull =>
    refine ⟨fun chunk hchunk => ?_, hlimit⟩
    rcases List.mem_append.mp hchunk with hdone | hlast
    · exact h.full chunk hdone
    · rw [List.mem_singleton.mp hlast]
      omega
  · refine ⟨h.full, ?_⟩
    rw [List.length_append, List.length_singleton]
    omega

theorem Filled.foldl {limit : ℕ} (hlimit : 0 < limit) {s : List (List ι) × List ι}
    (h : Filled limit s) (items : List ι) :
    Filled limit (items.foldl (Chunks.step limit) s) := by
  induction items generalizing s with
  | nil => exact h
  | cons e items ih => exact ih (h.step hlimit e)

/-- No chunk is empty or over the limit, and all but the last are full. -/
theorem cut_sizes {limit : ℕ} (hlimit : 0 < limit) (items : List ι) :
    (∀ chunk ∈ cut limit items, 0 < chunk.length ∧ chunk.length ≤ limit)
      ∧ ∀ chunk ∈ (cut limit items).dropLast, chunk.length = limit := by
  have hfilled := Filled.foldl hlimit (s := (([], []) : List (List ι) × List ι))
    ⟨fun chunk h => absurd h List.not_mem_nil, Nat.zero_le _⟩ items
  rw [cut, close]
  split
  · exact ⟨fun chunk h => ⟨(hfilled.full chunk h).symm ▸ hlimit, (hfilled.full chunk h).le⟩,
      fun chunk h => hfilled.full chunk ((List.dropLast_subset _ h))⟩
  · next hne =>
    rw [List.dropLast_concat]
    refine ⟨fun chunk h => ?_, hfilled.full⟩
    rcases List.mem_append.mp h with hdone | hlast
    · exact ⟨(hfilled.full chunk hdone).symm ▸ hlimit, (hfilled.full chunk hdone).le⟩
    · rw [List.mem_singleton.mp hlast]
      exact ⟨List.length_pos_of_ne_nil hne, hfilled.current⟩

/-- A loop that goes along with the cutting, step by step; a step may use what was written before
it, and what comes. -/
theorem foldl_simulates (limit : ℕ) (R : σ → List (List ι) × List ι → Prop) (f : σ → κ → σ)
    (g : κ → ι) (start : σ)
    (items : List κ) (hstart : R start ([], []))
    (hstep : ∀ (s : σ) (a : List (List ι) × List ι) (e : κ) (rest : List κ),
      written a ++ g e :: rest.map g = items.map g → R s a → R (f s e) (step limit a (g e))) :
    R (items.foldl f start) ((items.map g).foldl (step limit) ([], [])) := by
  have hloop : ∀ (rest : List κ) (s : σ) (a : List (List ι) × List ι), written a ++ rest.map g
    = items.map g → R s a →
      R (rest.foldl f s) ((rest.map g).foldl (step limit) a) := by
    intro rest
    induction rest with
    | nil => exact fun _ _ _ hR => hR
    | cons e rest ih =>
      intro s a hall hR
      refine ih (f s e) (step limit a (g e)) ?_ (hstep s a e rest hall hR)
      rw [written_step, List.append_assoc, List.singleton_append]
      exact hall
  exact hloop items start ([], []) rfl hstart

/-! ## Chunks of three collections

A chunk holds a stretch of three lists that are cut one after another. `Cuts` says that the chunks
are consecutive stretches, all but the last full. -/

/-- The three collections of a chunk. -/
structure View (σ α β γ : Type*) where
  first : σ → List α
  second : σ → List β
  third : σ → List γ

def firsts (items : List (α ⊕ β ⊕ γ)) : List α := items.filterMap fun
  | .inl a => some a
  | _ => none

def seconds (items : List (α ⊕ β ⊕ γ)) : List β := items.filterMap fun
  | .inr (.inl b) => some b
  | _ => none

def thirds (items : List (α ⊕ β ⊕ γ)) : List γ := items.filterMap fun
  | .inr (.inr c) => some c
  | _ => none

/-- Items in the order of their collections. -/
def listed (as : List α) (bs : List β) (cs : List γ) : List (α ⊕ β ⊕ γ) :=
  as.map .inl ++ bs.map (.inr ∘ .inl) ++ cs.map (.inr ∘ .inr)

theorem firsts_listed (as : List α) (bs : List β) (cs : List γ) : firsts (listed as bs cs) = as := by
  simp [firsts, listed, Function.comp_def]

theorem seconds_listed (as : List α) (bs : List β) (cs : List γ) : seconds (listed as bs cs) = bs := by
  simp [seconds, listed, Function.comp_def]

theorem thirds_listed (as : List α) (bs : List β) (cs : List γ) : thirds (listed as bs cs) = cs := by
  simp [thirds, listed, Function.comp_def]

theorem thirds_append (items items' : List (α ⊕ β ⊕ γ)) :
    thirds (items ++ items') = thirds items ++ thirds items' :=
  List.filterMap_append

namespace View

variable (view : View σ α β γ)

def size (c : σ) : ℕ := (view.first c).length + (view.second c).length + (view.third c).length

/-- The chunk holds the items, each in its collection. -/
structure Holds (c : σ) (items : List (α ⊕ β ⊕ γ)) : Prop where
  first : view.first c = firsts items
  second : view.second c = seconds items
  third : view.third c = thirds items

/-- The chunks hold the items, cut under the limit. -/
def Cuts (limit : ℕ) (chunks : List σ) (items : List (α ⊕ β ⊕ γ)) : Prop :=
  List.Forall₂ view.Holds chunks (cut limit items)

variable {view} {c c' : σ} {items : List (α ⊕ β ⊕ γ)}

theorem Holds.size_eq (h : view.Holds c items) : view.size c = items.length := by
  rw [size, h.first, h.second, h.third]
  clear h
  induction items with
  | nil => rfl
  | cons e items ih =>
    rcases e with a | b | t
    all_goals
      simp only [firsts, seconds, thirds, List.filterMap_cons, List.length_cons] at ih ⊢
      omega

/-- An item more, in its collection. -/
theorem Holds.add (h : view.Holds c items) (e : α ⊕ β ⊕ γ)
    (hfirst : view.first c' = view.first c ++ firsts [e])
    (hsecond : view.second c' = view.second c ++ seconds [e])
    (hthird : view.third c' = view.third c ++ thirds [e]) :
    view.Holds c' (items ++ [e]) where
  first := by
    rw [hfirst, h.first, firsts, firsts, firsts, List.filterMap_append]
  second := by
    rw [hsecond, h.second, seconds, seconds, seconds, List.filterMap_append]
  third := by rw [hthird, h.third, thirds_append]

variable {limit : ℕ} {chunks : List σ}

/-- What the chunks hold together. -/
theorem Cuts.contents (h : view.Cuts limit chunks items) :
    chunks.flatMap view.first = firsts items ∧ chunks.flatMap view.second = seconds items
      ∧ chunks.flatMap view.third = thirds items := by
  have hparts : ∀ {chunks : List σ} {parts : List (List (α ⊕ β ⊕ γ))},
    List.Forall₂ view.Holds chunks parts →
      chunks.flatMap view.first = firsts parts.flatten ∧ chunks.flatMap view.second
        = seconds parts.flatten
        ∧ chunks.flatMap view.third = thirds parts.flatten := by
    intro chunks parts hall
    induction hall with
    | nil => exact ⟨rfl, rfl, rfl⟩
    | cons hhead _ ih =>
      simp only [List.flatMap_cons, List.flatten_cons, firsts, seconds, thirds,
        List.filterMap_append] at ih ⊢
      exact ⟨congrArg₂ _ hhead.first ih.1, congrArg₂ _ hhead.second ih.2.1,
        congrArg₂ _ hhead.third ih.2.2⟩
  have hcontents := hparts h
  rwa [flatten_cut] at hcontents

/-- How large the chunks are. -/
theorem Cuts.sizes (hlimit : 0 < limit) (h : view.Cuts limit chunks items) :
    (∀ chunk ∈ chunks, 0 < view.size chunk ∧ view.size chunk ≤ limit)
      ∧ ∀ chunk ∈ chunks.dropLast, view.size chunk = limit := by
  obtain ⟨hbounds, hfull⟩ := cut_sizes hlimit items
  have hsizes : chunks.map view.size = (cut limit items).map List.length :=
    List.forall₂_eq_eq_eq ▸ (List.forall₂_map_left_iff.mpr
      (List.forall₂_map_right_iff.mpr (h.imp fun _ _ hc => hc.size_eq)))
  constructor
  · intro chunk hchunk
    have hmem : view.size chunk ∈ (cut limit items).map List.length :=
      hsizes ▸ List.mem_map_of_mem hchunk
    obtain ⟨part, hpart, heq⟩ := List.mem_map.mp hmem
    rw [← heq]
    exact hbounds part hpart
  · intro chunk hchunk
    have hmem : view.size chunk ∈ ((cut limit items).dropLast).map List.length := by
      rw [List.map_dropLast, ← hsizes, ← List.map_dropLast]
      exact List.mem_map_of_mem hchunk
    obtain ⟨part, hpart, heq⟩ := List.mem_map.mp hmem
    rw [← heq]
    exact hfull part hpart

end View

end Chunks
