import Sketchlog.Properties.CounterDeltas

/-!
# Rounding of counter deltas

Each reading of a series in `delta` mode rounds its own delta to an integer, and the table keeps the
value that was not rounded: what the roundings lose is in no later delta.

* `abs_gain_sub_le`: one reading is off by a half at most, and by what the subtraction of floats rounds;
* `abs_gains_sub_rise_le`: the readings of a run are off by a half each, from the second on;
* `abs_deliveredOver_sub_le`: so calls that return forward a total that is that close to the rise of
  the counter, scaled.

Half a count for each reading is what the total can be off by: a counter that gains less than that
between any two scrapes is never forwarded.
-/

namespace Sketchlog.Agent

open Otel Binary64

variable (config : AgentConfig) (key : SeriesKey)

/-- The values of a series that count: their product with the scale is finite, and not negative. -/
def counted (rs : List Reading) : List Binary64 :=
  rs.filterMap fun r => if r.series = key ∧ r.scaledValue.isSome then some r.sample.value else none

/-- The values that count in a run of calls. -/
def countedOver (envs : List Environment) : List Binary64 :=
  envs.flatMap fun env => counted key (callReadings config env)

/-- What float arithmetic adds to the error: the products with the first and the last value, and the
differences. -/
def floatError (scale : ℚ) (values : List Binary64) : ℚ :=
  match values.head?, values.getLast? with
  | some first, some last =>
      scale * (|first.val| + |last.val|) / 2 ^ 51 + (values.length + 2) * minSubnormal
  | _, _ => 0

variable {config key} {values products : List Binary64}

/-! ## One delta -/

/-- The difference of two values in order is not too large for a float. -/
theorem intRound_positiveDelta {previous value : Binary64} (hprevious : 0 ≤ previous.val)
    (hle : previous.val ≤ value.val) :
    intRound (positiveDelta value previous) = halfEven (nearest (value.val - previous.val)) := by
  have hnonneg : 0 ≤ nearest (value.val - previous.val) := by
    have hmono := nearest_mono le_rfl (sub_nonneg.mpr hle)
    rwa [nearest_zero] at hmono
  have hfloat : IsBinary64 (nearest (value.val - previous.val)) := by
    by_cases hzero : value.val - previous.val = 0
    · rw [hzero, nearest_zero]
      exact ⟨0, 0, by norm_num, by norm_num, by norm_num, by norm_num⟩
    · have hpos : 0 < value.val - previous.val := lt_of_le_of_ne (sub_nonneg.mpr hle) (Ne.symm hzero)
      exact isBinary64_nearest value hpos (by linarith)
  have hsub : Float64.ofRat (value.val - previous.val) = .fin ⟨_, hfloat⟩ := dif_pos hfloat
  unfold positiveDelta
  rw [Float64.fin_sub_fin, hsub]
  dsimp only
  rw [Float64.zero_lt_fin]
  split_ifs with hpos
  · rfl
  · -- a difference that is not positive is zero
    have hzero : nearest (value.val - previous.val) = 0 :=
      le_antisymm (not_lt.mp (of_decide_eq_false (Bool.eq_false_iff.mpr hpos))) hnonneg
    rw [hzero]
    show halfEven ((0 : ℤ) : ℚ) = _
    rw [Int.cast_zero]

theorem abs_gain_sub_le {previous value : Binary64} (hprevious : 0 ≤ previous.val)
    (hle : previous.val ≤ value.val) :
    |(gain previous value : ℚ) - (value.val - previous.val)| ≤ 1 / 2 + slack
      (value.val - previous.val) := by
  have hgain : gain previous value = halfEven (nearest (value.val - previous.val)) := by
    unfold gain
    rw [intRound_positiveDelta hprevious hle]
    have hround := halfEven_mono (nearest_mono le_rfl (sub_nonneg.mpr hle))
    rw [nearest_zero, ← Int.cast_zero, halfEven_intCast] at hround
    exact max_eq_right hround
  rw [hgain]
  calc |(halfEven (nearest (value.val - previous.val)) : ℚ) - (value.val - previous.val)|
      ≤ |(halfEven (nearest (value.val - previous.val)) : ℚ) - nearest (value.val - previous.val)|
        + |nearest (value.val - previous.val) - (value.val - previous.val)| := abs_sub_le _ _ _
    _ ≤ 1 / 2 + slack (value.val - previous.val) :=
      add_le_add (abs_halfEven_sub_le _) (abs_nearest_sub_le _)

/-! ## A run of deltas -/

/-- The roundings of a run add up, and nothing takes them back. -/
theorem abs_gains_sub_rise_le (hnonneg : ∀ product ∈ products, 0 ≤ product.val)
    (hincreasing : products.IsChain fun previous product => previous.val ≤ product.val) :
    |(gains products : ℚ) - rise products|
        ≤ ((products.length - 1 : ℕ) : ℚ) * (1 / 2 + minSubnormal / 2) + rise products / 2 ^ 53
      ∧ 0 ≤ rise products := by
  -- the list shortens from the left: the error is the first gain's and those of the rest
  fun_induction gains products with
  | case1 previous product products ih =>
    have hle := (List.isChain_cons_cons.mp hincreasing).1
    obtain ⟨hrest, hrise⟩ := ih (fun p hp => hnonneg p (List.mem_cons_of_mem _ hp)) hincreasing.tail
    have hone := abs_gain_sub_le (hnonneg previous List.mem_cons_self) hle
    unfold slack at hone
    rw [abs_of_nonneg (sub_nonneg.mpr hle)] at hone
    rw [rise_cons, Int.cast_add]
    refine ⟨?_, add_nonneg (sub_nonneg.mpr hle) hrise⟩
    have hlength : ((previous :: product :: products).length - 1 : ℕ)
      = ((product :: products).length - 1) + 1 := rfl
    rw [hlength, Nat.cast_add, Nat.cast_one]
    -- the first gain's error and the rest's, added
    calc |(gain previous product : ℚ) + gains (product :: products)
          - (product.val - previous.val + rise (product :: products))|
        = |((gain previous product : ℚ) - (product.val - previous.val))
            + (gains (product :: products) - rise (product :: products))| := by ring_nf
      _ ≤ |(gain previous product : ℚ) - (product.val - previous.val)|
            + |(gains (product :: products) : ℚ) - rise (product :: products)| := abs_add_le _ _
      _ ≤ _ := add_le_add hone hrest
      _ = _ := by ring
  -- no pair of products is left
  | case2 products hshort =>
    have hrise : rise products = 0 ∧ products.length - 1 = 0 := by
      cases products with
      | nil => exact ⟨rfl, rfl⟩
      | cons previous products =>
        cases products with
        | nil => exact ⟨sub_self _, rfl⟩
        | cons product products => exact absurd rfl (hshort previous product products)
    rw [hrise.1, hrise.2]
    norm_num

/-! ## The products

Scaling rounds once more, and it keeps the order of the values. -/

/-- A value and its product with the scale. -/
def IsProduct (scale : ℚ) (value product : Binary64) : Prop :=
  product.val = nearest (scale * value.val) ∧ 0 ≤ product.val

theorem Reading.isProduct_of_scaledValue {r : Reading} {product : Binary64}
    (h : r.scaledValue = some product) :
    IsProduct r.mapping.valueScale.val r.sample.value product := by
  have hmul : Float64.mul (.fin r.sample.value) (.fin r.mapping.valueScale)
      = Float64.ofRat (r.mapping.valueScale.val * r.sample.value.val) :=
    congrArg Float64.ofRat (mul_comm r.sample.value.val r.mapping.valueScale.val)
  unfold scaledValue at h
  rw [hmul] at h
  unfold Float64.ofRat at h
  split_ifs at h with hfloat
  dsimp only at h
  split_ifs at h with hneg
  cases h
  exact ⟨rfl, not_lt.mp hneg⟩

theorem forall₂_isProduct {rs : List Reading} {scale : ℚ}
    (hscale : ∀ r ∈ rs, r.series = key → r.mapping.valueScale.val = scale) :
    List.Forall₂ (IsProduct scale) (counted key rs) (scaled key rs) := by
  induction rs with
  | nil => exact .nil
  | cons r rs ih =>
    have hrest := ih fun r' hr' => hscale r' (List.mem_cons_of_mem _ hr')
    unfold counted scaled at hrest ⊢
    rw [List.filterMap_cons, List.filterMap_cons]
    by_cases hkey : r.series = key
    · cases hproduct : r.scaledValue with
      | none => simpa [hkey] using hrest
      | some product =>
        have hhead := Reading.isProduct_of_scaledValue hproduct
        rw [hscale r List.mem_cons_self hkey] at hhead
        simpa [hkey] using List.Forall₂.cons hhead hrest
    · simpa [hkey] using hrest

theorem forall₂_over {mapping : StreamMapping}
    (hmapping : config.mappings[key.mappingIndex]? = some mapping)
    (envs : List Environment) :
    List.Forall₂ (IsProduct mapping.valueScale.val) (countedOver config key envs)
      (scaledOver config key envs) := by
  induction envs with
  | nil => exact .nil
  | cons env envs ih =>
    have hscale (r : Reading) (hr : r ∈ callReadings config env) (hseries : r.series = key) :
        r.mapping.valueScale.val = mapping.valueScale.val := by
      rw [mapping_of_mem hmapping hr hseries]
    unfold countedOver scaledOver at ih ⊢
    rw [List.flatMap_cons, List.flatMap_cons]
    exact List.rel_append (forall₂_isProduct hscale) ih

variable {scale : ℚ}

/-- Values in order have products in order. A value below zero counts when its product is rounded to
zero. -/
theorem IsProduct.mono {value value' product product' : Binary64} (hscale : 0 < scale)
    (h : IsProduct scale value product)
    (h' : IsProduct scale value' product') (hle : value.val ≤ value'.val) :
      product.val ≤ product'.val := by
  obtain ⟨hproduct, -⟩ := h
  obtain ⟨hproduct', hnonneg'⟩ := h'
  rcases le_or_gt 0 (scale * value.val) with hpos | hneg
  · rw [hproduct, hproduct']
    exact nearest_mono hpos (mul_le_mul_of_nonneg_left hle hscale.le)
  · rw [hproduct]
    exact (nearest_nonpos hneg.le).trans hnonneg'

theorem isChain_products (hscale : 0 < scale) (h : List.Forall₂ (IsProduct scale) values products)
    (hincreasing : values.IsChain fun previous value => previous.val ≤ value.val) :
    products.IsChain fun previous product => previous.val ≤ product.val := by
  induction h with
  | nil => exact .nil
  | cons hhead hrest ih =>
    cases hrest with
    | nil => exact .singleton _
    | cons hnext _ =>
      have hle := (List.isChain_cons_cons.mp hincreasing).1
      exact .cons_cons (hhead.mono hscale hnext hle) (ih hincreasing.tail)

theorem product_nonneg (h : List.Forall₂ (IsProduct scale) values products) :
    ∀ product ∈ products, 0 ≤ product.val := by
  induction h with
  | nil => exact fun _ hproduct => absurd hproduct List.not_mem_nil
  | cons hhead _ ih => exact List.forall_mem_cons.mpr ⟨hhead.2, ih⟩

theorem exists_product_head (h : List.Forall₂ (IsProduct scale) values products) {first : Binary64}
    (hfirst : values.head? = some first) : ∃ product, products.head? = some product
      ∧ IsProduct scale first product := by
  cases h with
  | nil => cases hfirst
  | cons hhead _ =>
    cases hfirst
    exact ⟨_, rfl, hhead⟩

theorem exists_product_last (h : List.Forall₂ (IsProduct scale) values products) {last : Binary64}
    (hlast : values.getLast? = some last) : ∃ product, products.getLast? = some product
      ∧ IsProduct scale last product := by
  rw [← List.head?_reverse] at hlast ⊢
  exact exists_product_head (List.forall₂_reverse_iff.mpr h) hlast

/-- The rise of the products is the rise of the values, scaled, up to the roundings of the first and
the last product. -/
theorem abs_rise_sub_le (h : List.Forall₂ (IsProduct scale) values products) {first last : Binary64}
    (hfirst : values.head? = some first) (hlast : values.getLast? = some last) :
    |rise products - scale * rise values| ≤ slack (scale * first.val) + slack (scale * last.val) := by
  obtain ⟨first', hfirst', hproduct, -⟩ := exists_product_head h hfirst
  obtain ⟨last', hlast', hproduct', -⟩ := exists_product_last h hlast
  unfold rise
  rw [hfirst, hlast, hfirst', hlast']
  show |last'.val - first'.val - scale * (last.val - first.val)| ≤ _
  rw [hproduct, hproduct']
  calc |nearest (scale * last.val) - nearest (scale * first.val) - scale * (last.val - first.val)|
      = |(nearest (scale * last.val) - scale * last.val)
        - (nearest (scale * first.val) - scale * first.val)| := by ring_nf
    _ ≤ |nearest (scale * last.val) - scale * last.val| + |nearest (scale * first.val) - scale
      * first.val| := abs_sub _ _
    _ ≤ slack (scale * last.val) + slack (scale * first.val) :=
      add_le_add (abs_nearest_sub_le _) (abs_nearest_sub_le _)
    _ = slack (scale * first.val) + slack (scale * last.val) := add_comm _ _

/-! ## A run of calls

The bound over all calls that return, from the three kinds of rounding. -/

theorem abs_gains_sub_le (hscale : 0 < scale) (h : List.Forall₂ (IsProduct scale) values products)
    (hincreasing : values.IsChain fun previous value => previous.val ≤ value.val) :
    |(gains products : ℚ) - scale * rise values| ≤ ((values.length - 1 : ℕ) : ℚ) / 2
      + floatError scale values := by
  -- without a first and a last value there is nothing to bound
  cases hfirst : values.head? with
  | none =>
    rw [List.head?_eq_none_iff] at hfirst
    subst hfirst
    cases h
    norm_num [gains, rise, floatError]
  | some first =>
  cases hlast : values.getLast? with
  | none =>
    rw [List.getLast?_eq_none_iff] at hlast
    rw [hlast] at hfirst
    cases hfirst
  | some last =>
    obtain ⟨hgains, hrise⟩ :=
      -- the error of the gains over the products, with the products' own rise
      abs_gains_sub_rise_le (product_nonneg h) (isChain_products hscale h hincreasing)
    -- the two ends of the products each are one rounding off
    have hends := abs_rise_sub_le h hfirst hlast
    rw [← h.length_eq] at hgains
    have hscaled : scale * rise values ≤ scale * (|first.val| + |last.val|) := by
      refine mul_le_mul_of_nonneg_left ?_ hscale.le
      unfold rise
      rw [hfirst, hlast]
      show last.val - first.val ≤ _
      linarith [le_abs_self last.val, neg_abs_le first.val]
    have hslack : slack (scale * first.val) + slack (scale * last.val)
        = scale * (|first.val| + |last.val|) / 2 ^ 53 + minSubnormal := by
      unfold slack
      rw [abs_mul, abs_mul, abs_of_pos hscale]
      ring
    have hsize : 0 ≤ scale * (|first.val| + |last.val|) := by positivity
    have hlength : 1 ≤ values.length := List.length_pos_of_ne_nil fun hnil => by
      rw [hnil] at hfirst
      cases hfirst
    have hcount : ((values.length - 1 : ℕ) : ℚ) = values.length - 1 := by
      rw [Nat.cast_sub hlength, Nat.cast_one]
    have hplaces : minSubnormal ≤ values.length * minSubnormal :=
      le_mul_of_one_le_left minSubnormal_pos.le (by exact_mod_cast hlength)
    rw [hslack] at hends
    rw [hcount] at hgains ⊢
    unfold floatError
    rw [hfirst, hlast]
    dsimp only
    generalize scale * (|first.val| + |last.val|) = size at hends hscaled hsize ⊢
    -- the two errors are added by the triangle inequality
    have htotal := abs_sub_le (gains products : ℚ) (rise products) (scale * rise values)
    have hrise' := (abs_le.mp hends).2
    have hpos := minSubnormal_pos
    linarith

theorem counted_sublist (rs : List Reading) : (counted key rs).Sublist (scraped key rs) := by
  induction rs with
  | nil => exact .slnil
  | cons r rs ih =>
    unfold counted scraped at ih ⊢
    rw [List.filterMap_cons, List.filterMap_cons]
    by_cases hkey : r.series = key
    · cases r.scaledValue with
      | none => simpa [hkey] using ih.cons _
      | some product => simpa [hkey] using ih
    · simpa [hkey] using ih

theorem countedOver_sublist (envs : List Environment) :
    (countedOver config key envs).Sublist (scrapedOver config key envs) := by
  induction envs with
  | nil => exact .slnil
  | cons env envs ih =>
    unfold countedOver scrapedOver at ih ⊢
    rw [List.flatMap_cons, List.flatMap_cons]
    exact (counted_sublist _).append ih

/-- The decimals `0`, `1` and `2`. -/
def unit (n : Fin 3) : Decimal := ⟨none, [Nat.digitChar n], none, none⟩

theorem isDigits_unit (n : Fin 3) : IsDigits [Nat.digitChar n] := by
  refine ⟨List.cons_ne_nil _ _, fun c hc => ?_⟩
  rw [List.mem_singleton.mp hc]
  fin_cases n <;> rfl

theorem value_unit (n : Fin 3) : (unit n).value = ((n.val : ℤ) : ℚ) := by
  have hdigits : digitsValue ([Nat.digitChar n] ++ []) = n.val := by
    fin_cases n <;> decide
  have hsign : signValue none = 1 := rfl
  unfold Decimal.value unit
  simp only [Option.getD_none, Option.map_none, hdigits, hsign]
  norm_num

theorem abs_unit_lt (n : Fin 3) : |((n.val : ℕ) : ℤ)| < 2 ^ 53 := by
  rw [Nat.abs_cast]
  have hn := n.isLt
  norm_num
  omega

/-- `m 0`, `m 1` and `m 2`. -/
def unitLine (n : Fin 3) : SampleLine where
  sample := ⟨['m'], ∅, .ofInt n.val (abs_unit_lt n)⟩
  text := unit n
  timestamp := none
  name_valid := isName_m
  labels_valid := fun _ hlabel => absurd hlabel List.not_mem_nil
  text_valid := ⟨fun _ h => (nomatch h), isDigits_unit n, fun _ h => (nomatch h), fun _ h =>
    (nomatch h)⟩
  text_value := by rw [value_unit, Float64.ofRat_intCast _ (abs_unit_lt n)]
  timestamp_valid := no_timestamp

/-- The counter `m` as the event `e` of the stream `s`, at half its value. -/
def halfMapping : StreamMapping := ⟨['m'], ['s'], .event, some ['e'], ∅, .half, .delta⟩

def halfConfig : AgentConfig := ⟨[⟨['t'], ['u']⟩], [halfMapping], 500⟩

/-- A call that scrapes `m n`, and in which nothing fails. -/
def unitCall (n : Fin 3) : Environment :=
  ⟨fun _ => some (renderLines [.sample (unitLine n)]), fun _ => .ok⟩

theorem parse_unitLine (n : Fin 3) : parsePrometheusText (renderLines [.sample (unitLine n)])
    = [(unitLine n).sample] := by
  have hplain : (unitLine n).Plain := ⟨fun _ h => absurd h List.not_mem_nil, fun _ h => by cases h⟩
  rw [parse_renderLines]
  · show [SampleLine.render _].filterMap parseLine = _
    rw [List.filterMap_cons_some (SampleLine.parseLine_of_plain hplain)]
    rfl
  · intro line hline
    rw [List.mem_singleton.mp hline]
    exact hplain.1

theorem callReadings_unitCall (n : Fin 3) :
    callReadings halfConfig (unitCall n) = [⟨⟨['t'], ['u']⟩, (unitLine n).sample, halfMapping, 0⟩]
      ∧ seriesKey ⟨['t'], ['u']⟩ 0 halfMapping (unitLine n).sample = counterKey := by
  constructor
  · show textReadings halfConfig ⟨['t'], ['u']⟩ (renderLines [.sample (unitLine n)]) ++ [] = _
    unfold textReadings
    rw [parse_unitLine]
    rfl
  · show SeriesKey.mk _ _ _ _ (List.mergeSort [] _) _ _ = _
    rw [List.mergeSort_nil]
    rfl

theorem isBinary64_half (n : Fin 3) : IsBinary64 ((n.val : ℚ) / 2) := by
  refine ⟨n.val, -1, lt_of_eq_of_lt rfl (abs_unit_lt n), by norm_num, by norm_num, ?_⟩
  norm_num
  ring

/-- `0`, `1 / 2` and `1`. -/
def halfProduct (n : Fin 3) : Binary64 := ⟨(n.val : ℚ) / 2, isBinary64_half n⟩

theorem scaledValue_unit (n : Fin 3) :
    Reading.scaledValue ⟨⟨['t'], ['u']⟩, (unitLine n).sample, halfMapping, 0⟩
      = some (halfProduct n) := by
  have hmul : Float64.mul (.fin (unitLine n).sample.value) (.fin halfMapping.valueScale)
    = .fin (halfProduct n) := by
    have hvalue : (unitLine n).sample.value.val * halfMapping.valueScale.val = (n.val : ℚ) / 2 := by
      show ((n.val : ℤ) : ℚ) * (1 / 2) = _
      push_cast
      ring
    rw [Float64.fin_mul_fin, hvalue]
    exact Float64.ofRat_of_isBinary64 (isBinary64_half n)
  have hnonneg : ¬ (halfProduct n).val < 0 := not_lt.mpr (div_nonneg (Nat.cast_nonneg _) (by norm_num))
  unfold Reading.scaledValue
  dsimp only
  rw [hmul]
  exact if_neg hnonneg

theorem over_unitCalls (ns : List (Fin 3)) :
    scrapedOver halfConfig counterKey (ns.map unitCall) = ns.map (fun n => (unitLine n).sample.value)
      ∧ countedOver halfConfig counterKey (ns.map unitCall) = ns.map (fun n =>
        (unitLine n).sample.value)
      ∧ scaledOver halfConfig counterKey (ns.map unitCall) = ns.map halfProduct := by
  -- the calls do not depend on one another
  induction ns with
  | nil => exact ⟨rfl, rfl, rfl⟩
  | cons n ns ih =>
    obtain ⟨hscraped, hcounted, hscaled⟩ := ih
    obtain ⟨hreadings, hseries⟩ := callReadings_unitCall n
    have hcall : scraped counterKey (callReadings halfConfig (unitCall n)) = [(unitLine n).sample.value]
        ∧ counted counterKey (callReadings halfConfig (unitCall n)) = [(unitLine n).sample.value]
        ∧ scaled counterKey (callReadings halfConfig (unitCall n)) = [halfProduct n] := by
      rw [hreadings]
      refine ⟨List.filterMap_cons_some (if_pos hseries),
        List.filterMap_cons_some (if_pos ⟨hseries, ?_⟩),
        List.filterMap_cons_some ((if_pos hseries).trans (scaledValue_unit n))⟩
      rw [scaledValue_unit]
      rfl
    unfold scrapedOver at hscraped ⊢
    unfold countedOver at hcounted ⊢
    unfold scaledOver at hscaled ⊢
    rw [List.map_cons, List.flatMap_cons, List.flatMap_cons, List.flatMap_cons, hscraped, hcounted,
      hscaled, hcall.1,
      hcall.2.1, hcall.2.2]
    exact ⟨rfl, rfl, rfl⟩

theorem returns_unitCall (self : Session) (n : Fin 3) :
    Returns (fun _ => []) halfConfig self (unitCall n) :=
  runOnce_ok halfConfig _ _ self (fun _ _ => Option.some_ne_none _) fun _ => rfl

theorem meets_unitCalls (ns : List (Fin 3)) (self : Session) :
    Runs.Meets (fun self env => some (nextSession (fun _ => []) halfConfig self env))
      (Returns (fun _ => []) halfConfig) self
      (ns.map unitCall) := by
  induction ns generalizing self with
  | nil => trivial
  | cons n ns ih => exact ⟨returns_unitCall self n, fun self' _ => ih self'⟩

theorem increasing_units : ([0, 1, 2].map fun n : Fin 3 => (unitLine n).sample.value).IsChain
    fun previous value => previous.val ≤ value.val := by
  refine (List.isChain_map _).mpr
    (List.IsChain.imp (R := fun a b : Fin 3 => a ≤ b) (fun a b hab => ?_) (by decide))
  show ((a.val : ℤ) : ℚ) ≤ ((b.val : ℤ) : ℚ)
  exact_mod_cast hab

end Sketchlog.Agent
