import Sketchlog.Lib.BoundedMonoid
import Sketchlog.Refine.PythonStreamLog

/-!
# What every backend of a log satisfies

A `Backend` is a log type whose ingestion calls and `merge` are guarded additions of contents. Both
log types of the repository are backends, so what follows from guarded addition alone is proved here
once: `merge` is commutative and associative as a partial operation, and empty logs are its units
(`merge_comm`, `merge_assoc`, `merge_empty`); running calls on one log is merging the logs they were
run on apart (`merge_runs`); a call that raises leaves the log as it was (`error_state`). Each result
reads `Fits` of a sum in two ways.
-/

namespace Sketchlog

open Imperative

/-- A log type that implements `Contents`. `view` is an ingestion call as the Python log takes it. -/
structure Backend (M : IndexMapping) where
  Log : Type
  Item : Type
  view : Ingest Item → Ingest UniqueItem
  ingest : Ingest Item → EStateM PyError Log Unit
  merge : Log → EStateM PyError Log Unit
  reset : EStateM PyError Log Unit
  Represents : Log → (S : Shape) → Contents S → Prop
  shape_eq : ∀ {log : Log} {S S' : Shape} {c : Contents S} {c' : Contents S'},
    Represents log S c → Represents log S' c' → S = S'
  contents_eq : ∀ {log : Log} {S : Shape} {c d : Contents S},
    Represents log S c → Represents log S d → c = d
  ingest_guarded : ∀ {log : Log} {S : Shape} {c : Contents S}, Represents log S c → c.Fits →
    ∀ op, Guarded (ingest op) log ((view op).Valid M S ∧ (c + (view op).delta M S).Fits)
      (Represents · S (c + (view op).delta M S))
  merge_guarded : ∀ {log other : Log} {S : Shape} {c d : Contents S}, Represents log S c → c.Fits →
    Represents other S d → Guarded (merge other) log (c + d).Fits (Represents · S (c + d))
  merge_of_shape_ne : ∀ {log other : Log} {S S' : Shape} {c : Contents S} {c' : Contents S'},
    Represents log S c → Represents other S' c' → S ≠ S' → ∃ e, (merge other).run log = .error e log
  run_reset : ∀ {log : Log} {S : Shape} {c : Contents S}, Represents log S c →
    ∃ log', reset.run log = .ok () log' ∧ Represents log' S 0

namespace Backend

variable {M : IndexMapping} (B : Backend M)

/-- The log holds contents that fit. -/
def Holds (log : B.Log) : Prop := ∃ S, ∃ c : Contents S, B.Represents log S c ∧ c.Fits

/-- The two logs hold the same contents. -/
def Same (a b : B.Log) : Prop := ∃ S, ∃ c : Contents S, B.Represents a S c ∧ B.Represents b S c

/-- The log is empty. -/
def Empty (log : B.Log) (S : Shape) : Prop := B.Represents log S 0

variable {B} {a b c r r' : B.Log} {S : Shape} {x y : Contents S}

/-! ## One merge

`Backend` lists what both implementations have in common. A merge is accepted when the sum fits, and
then it represents the sum. -/

/-- What an accepted merge has done. -/
theorem merge_ok (ha : B.Holds a) (hb : B.Holds b) (h : (B.merge b).run a = .ok () r) :
    ∃ (S : Shape) (x y : Contents S), B.Represents a S x ∧ B.Represents b S y ∧ x.Fits ∧ y.Fits
      ∧ B.Represents r S (x + y) ∧ (x + y).Fits := by
  obtain ⟨S, x, hx, hxf⟩ := ha
  obtain ⟨S', y, hy, hyf⟩ := hb
  by_cases hS : S = S'
  · subst hS
    obtain ⟨hfits, hr⟩ := (B.merge_guarded hx hxf hy).of_run_ok h
    exact ⟨S, x, y, hx, hy, hxf, hyf, hr, hfits⟩
  · obtain ⟨e, he⟩ := B.merge_of_shape_ne hx hy hS
    rw [he] at h
    cases h

theorem merge_run (hx : B.Represents a S x) (hxf : x.Fits) (hy : B.Represents b S y)
    (h : (x + y).Fits) : ∃ r, (B.merge b).run a = .ok () r ∧ B.Represents r S (x + y) :=
  (B.merge_guarded hx hxf hy).run_ok h

/-- A call that raises leaves the log as it was. -/
theorem error_state (ha : B.Holds a) (op : Ingest B.Item) {e : PyError}
    (h : (B.ingest op).run a = .error e r) : r = a := by
  obtain ⟨S, x, hx, hxf⟩ := ha
  exact (B.ingest_guarded hx hxf op).error_state h

theorem merge_error_state (ha : B.Holds a) (hb : B.Holds b) {e : PyError}
    (h : (B.merge b).run a = .error e r) : r = a := by
  obtain ⟨S, x, hx, hxf⟩ := ha
  obtain ⟨S', y, hy, -⟩ := hb
  by_cases hS : S = S'
  · subst hS
    exact (B.merge_guarded hx hxf hy).error_state h
  · obtain ⟨e', he'⟩ := B.merge_of_shape_ne hx hy hS
    rw [he'] at h
    cases h
    rfl

/-! ## The algebra of merging

Commutativity, associativity and the empty log, each with the statement that the two sides are
accepted together. They are the laws of addition of contents. -/

theorem merge_comm_accepts (ha : B.Holds a) (hb : B.Holds b)
    (h : ∃ r, (B.merge b).run a = .ok () r) : ∃ r, (B.merge a).run b = .ok () r := by
  obtain ⟨r, hr⟩ := h
  obtain ⟨S, x, y, hx, hy, -, hyf, -, hfits⟩ := merge_ok ha hb hr
  rw [add_comm] at hfits
  obtain ⟨r', hr', -⟩ := merge_run hy hyf hx hfits
  exact ⟨r', hr'⟩

theorem merge_comm (ha : B.Holds a) (hb : B.Holds b) :
    ((∃ r, (B.merge b).run a = .ok () r) ↔ ∃ r, (B.merge a).run b = .ok () r)
      ∧ ∀ r r', (B.merge b).run a = .ok () r → (B.merge a).run b = .ok () r' → B.Same r r' := by
  refine ⟨⟨merge_comm_accepts ha hb, merge_comm_accepts hb ha⟩, ?_⟩
  intro r r' hr hr'
  obtain ⟨S, x, y, hx, hy, -, -, hrep, -⟩ := merge_ok ha hb hr
  obtain ⟨S', y', x', hy', hx', -, -, hrep', -⟩ := merge_ok hb ha hr'
  obtain rfl := B.shape_eq hx hx'
  obtain rfl := B.contents_eq hx hx'
  obtain rfl := B.contents_eq hy hy'
  rw [add_comm] at hrep'
  exact ⟨S, x + y, hrep, hrep'⟩

/-- Both groupings of three. -/
theorem merge_assoc (ha : B.Holds a) (hb : B.Holds b) (hc : B.Holds c) :
    ((∃ ab r, (B.merge b).run a = .ok () ab ∧ (B.merge c).run ab = .ok () r)
        ↔ ∃ bc r, (B.merge c).run b = .ok () bc ∧ (B.merge bc).run a = .ok () r)
      ∧ ∀ ab r bc r', (B.merge b).run a = .ok () ab → (B.merge c).run ab = .ok () r →
        (B.merge c).run b = .ok () bc → (B.merge bc).run a = .ok () r' → B.Same r r' := by
  have hparts : ∀ (S : Shape) (x y : Contents S), (x + y).Fits → x.Fits :=
    fun S x y h => Contents.Fits.of_add h
  refine ⟨⟨?_, ?_⟩, ?_⟩
  · -- the parts of a sum fit when the sum does, so both groupings are accepted together
    rintro ⟨ab, r, hab, hr⟩
    obtain ⟨S, x, y, hx, hy, hxf, hyf, hab', habf⟩ := merge_ok ha hb hab
    obtain ⟨S', xy, z, hxy, hz, -, -, -, hfits⟩ := merge_ok ⟨S, x + y, hab', habf⟩ hc hr
    obtain rfl := B.shape_eq hab' hxy
    obtain rfl := B.contents_eq hab' hxy
    obtain ⟨hyz, hxyz⟩ := (BoundedMonoid.regroup (hparts S) x y z).mp ⟨habf, hfits⟩
    obtain ⟨bc, hbc, hbcrep⟩ := merge_run hy hyf hz hyz
    obtain ⟨r', hr', -⟩ := merge_run hx hxf hbcrep hxyz
    exact ⟨bc, r', hbc, hr'⟩
  · rintro ⟨bc, r, hbc, hr⟩
    obtain ⟨S, y, z, hy, hz, -, -, hbc', hbcf⟩ := merge_ok hb hc hbc
    obtain ⟨S', x, yz, hx, hyz, hxf, -, -, hfits⟩ := merge_ok ha ⟨S, y + z, hbc', hbcf⟩ hr
    obtain rfl := B.shape_eq hbc' hyz
    obtain rfl := B.contents_eq hbc' hyz
    obtain ⟨hxy, hxyz⟩ := (BoundedMonoid.regroup (hparts S) x y z).mpr ⟨hbcf, hfits⟩
    obtain ⟨ab, hab, habrep⟩ := merge_run hx hxf hy hxy
    obtain ⟨r', hr', -⟩ := merge_run habrep hxy hz hxyz
    exact ⟨ab, r', hab, hr'⟩
  · -- both results stand for the same sum of contents, by associativity
    intro ab r bc r' hab hr hbc hr'
    obtain ⟨S, x, y, hx, hy, -, -, hab', habf⟩ := merge_ok ha hb hab
    obtain ⟨S', xy, z, hxy, hz, -, -, hrep, -⟩ := merge_ok ⟨S, x + y, hab', habf⟩ hc hr
    obtain rfl := B.shape_eq hab' hxy
    obtain rfl := B.contents_eq hab' hxy
    obtain ⟨S', y', z', hy', hz', -, -, hbc', hbcf⟩ := merge_ok hb hc hbc
    obtain rfl := B.shape_eq hy hy'
    obtain rfl := B.contents_eq hy hy'
    obtain rfl := B.contents_eq hz hz'
    obtain ⟨S', x', yz, hx', hyz, -, -, hrep', -⟩ := merge_ok ha ⟨S, y + z, hbc', hbcf⟩ hr'
    obtain rfl := B.shape_eq hx hx'
    obtain rfl := B.contents_eq hx hx'
    obtain rfl := B.contents_eq hbc' hyz
    rw [← add_assoc] at hrep'
    exact ⟨S, x + y + z, hrep, hrep'⟩

/-- The empty log of a configuration is a unit on both sides. -/
theorem merge_empty (ha : B.Represents a S x) (hxf : x.Fits) (he : B.Empty b S) :
    (∃ r, (B.merge b).run a = .ok () r ∧ B.Same r a)
      ∧ ∃ r, (B.merge a).run b = .ok () r ∧ B.Same r a := by
  obtain ⟨r, hr, hrep⟩ := merge_run ha hxf he (by rwa [add_zero])
  obtain ⟨r', hr', hrep'⟩ := merge_run he Contents.fits_zero ha (by rwa [zero_add])
  rw [add_zero] at hrep
  rw [zero_add] at hrep'
  exact ⟨⟨r, hr, S, x, hrep, ha⟩, ⟨r', hr', S, x, hrep', ha⟩⟩

/-! ## Runs of calls

Merging two logs that were filled apart gives what one log gives that was filled with both. -/

/-- What a list of calls adds. -/
noncomputable def total (B : Backend M) (S : Shape) (ops : List (Ingest B.Item)) : Contents S :=
  (ops.map fun op => (B.view op).delta M S).sum

/-- A list of calls runs without rejection exactly when every call is valid and the sum fits. -/
theorem ingestAll_outcome (ops : List (Ingest B.Item)) (ha : B.Represents a S x)
    (hxf : x.Fits) :
    Outcome (ops.forM B.ingest) a
      ((∀ op ∈ ops, (B.view op).Valid M S) ∧ (x + B.total S ops).Fits)
      (B.Represents · S (x + B.total S ops)) :=
  BoundedMonoid.forM_outcome (fun log y => B.Represents log S y) (fun op => (B.view op).Valid M S)
    (fun op => (B.view op).delta M S) (fun _ _ h => Contents.Fits.of_add h) ops
    (fun op _ _ _ hs hf => (B.ingest_guarded hs hf op).outcome) ha hxf

/-- **Ingestion is a homomorphism.** Two lists of calls accepted on fresh logs can be run one after
the other on one fresh log exactly when the two logs can be merged, with the same result. -/
theorem merge_runs {e₁ e₂ e : B.Log} (h₁ : B.Empty e₁ S) (h₂ : B.Empty e₂ S) (he : B.Empty e S)
    {xs ys : List (Ingest B.Item)} (hxs : (xs.forM B.ingest).run e₁ = .ok () a)
    (hys : (ys.forM B.ingest).run e₂ = .ok () b) :
    ((∃ r, (B.merge b).run a = .ok () r) ↔ ∃ r, ((xs ++ ys).forM B.ingest).run e = .ok () r)
      ∧ ∀ r r', (B.merge b).run a = .ok () r → ((xs ++ ys).forM B.ingest).run e = .ok () r' →
        B.Same r r' := by
  -- a run of ingestion calls stands for the sum of what they add
  have hruns := ingestAll_outcome (B := B) (S := S) xs h₁ Contents.fits_zero
  have hruns' := ingestAll_outcome (B := B) (S := S) ys h₂ Contents.fits_zero
  have hboth := ingestAll_outcome (B := B) (S := S) (xs ++ ys) he Contents.fits_zero
  have htotal : B.total S (xs ++ ys) = B.total S xs + B.total S ys := by
    simp only [total, List.map_append, List.sum_append]
  simp only [zero_add, htotal] at hruns hruns' hboth
  obtain ⟨⟨hxv, hxf⟩, hxrep⟩ := hruns.of_run_ok hxs
  obtain ⟨⟨hyv, -⟩, hyrep⟩ := hruns'.of_run_ok hys
  have hmerge := B.merge_guarded hxrep hxf hyrep
  have hvalid : ∀ op ∈ xs ++ ys, (B.view op).Valid M S := by
    intro op hop
    rcases List.mem_append.mp hop with hop | hop
    · exact hxv op hop
    · exact hyv op hop
  refine ⟨⟨?_, ?_⟩, ?_⟩
  · rintro ⟨r, hr⟩
    obtain ⟨r', hr', -⟩ := hboth.run_ok ⟨hvalid, (hmerge.of_run_ok hr).1⟩
    exact ⟨r', hr'⟩
  · rintro ⟨r, hr⟩
    obtain ⟨r', hr', -⟩ := hmerge.run_ok (hboth.of_run_ok hr).1.2
    exact ⟨r', hr'⟩
  · intro r r' hr hr'
    exact ⟨S, _, (hmerge.of_run_ok hr).2, (hboth.of_run_ok hr').2⟩

end Backend

/-- The Python log. -/
def StreamLog.backend (M : IndexMapping) : Backend M where
  Log := StreamLog
  Item := UniqueItem
  view := id
  ingest := StreamLog.ingest M
  merge := StreamLog.merge
  reset := StreamLog.reset
  Represents log _ c := log.Represents c
  shape_eq h h' := h.shape_eq h'
  contents_eq h h' := h.contents_eq h'
  ingest_guarded h hf op := StreamLog.ingest_guarded h hf op
  merge_guarded h hf h' := StreamLog.merge_guarded h hf h'
  merge_of_shape_ne h h' hne := StreamLog.merge_of_shape_ne h h' hne
  run_reset h := StreamLog.run_reset h

end Sketchlog
