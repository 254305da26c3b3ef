import Mathlib
import GrainStore.Server.Daemon

/-!
# Numbers in requests

A number in a body is stored as it was given, and a number in a filter selects what it says, when it
is an integer of the width of its field.  Other values are cut or count as absent, which does no
harm in a few cases only: `numbers_exact_iff` has them all.
-/

namespace GrainStore

open FixedWidth

/-! ## What is given and what is stored -/

/-- The JSON values that a body has for its grains. -/
def grainValues (fromStr : String → Except String JsonValue) (body : String) : List JsonValue :=
  match fromStr body with
  | .ok (.array items) => items
  | .ok (.object fields) =>
    (((JsonValue.object fields).get "grains").bind JsonValue.asArray).getD [.object fields]
  | .ok _ => []
  | .error _ => (lines body).filterMap fun line =>
    if trim line = [] then none else (fromStr (String.ofList (trim line))).toOption

/-- The number given in a field of a grain: 0 without the field, and none if it holds no number. -/
def given (v : JsonValue) (key : String) : Option ℚ :=
  match v.get key with
  | none => some 0
  | some x => x.value

/-- The category that is read back from the value stored for a record. -/
def storedCategory (r : GrainRec) : ℚ := ((decodeVal (.bytes r.value)).1.toNat : ℚ)

/-- The amount that is read back. -/
def storedAmount (r : GrainRec) : ℚ := ((decodeVal (.bytes r.value)).2.1.toInt : ℚ)

/-- The numbers present in a grain are stored. -/
structure KeepsNumbers (v : JsonValue) (r : GrainRec) : Prop where
  category : ∀ x, v.get "category" = some x → x.value = some (storedCategory r)
  amount : ∀ x, v.get "amount" = some x → x.value = some (storedAmount r)

/-- A bound that may be given in a filter holds of an amount. -/
def BoundHolds (rel : ℚ → ℚ → Prop) (bound : Option JsonValue) (amount : ℚ) : Prop :=
  ∀ x, bound = some x → ∃ b, x.value = some b ∧ rel b amount

/-- The category given in a filter is that of the grain, and its amount is in the range. -/
structure Selects (q v : JsonValue) : Prop where
  category : ∀ x, q.get "category" = some x → ∃ c, x.value = some c ∧ given v "category" = some c
  minAmount : ∃ a, given v "amount" = some a ∧ BoundHolds (· ≤ ·) (q.get "min_amount") a
  maxAmount : ∃ a, given v "amount" = some a ∧ BoundHolds (· ≥ ·) (q.get "max_amount") a

/-- Of all grains stored as they were given, a query returns those that its filter selects. -/
def FilterExact (q : JsonValue) (args : QueryArgs) : Prop :=
  ∀ v r, grainFromValue v = some r → KeepsNumbers v r →
    ∀ g : Grain, g.val = .bytes r.value → (args.passes g ↔ Selects q v)

/-! ## When it is exact -/

/-- An integer from 0 to 255. -/
def IsByte (x : JsonValue) : Prop := ∃ n, x.asU64 = some n ∧ n.toNat < 2 ^ 8

/-- A grain whose numbers fit: integers of the width of the field, or zero in any form. -/
structure GrainFits (v : JsonValue) : Prop where
  category : ∀ x, v.get "category" = some x → IsByte x ∨ x.value = some 0
  amount : ∀ x, v.get "amount" = some x → x.asI64 ≠ none ∨ x.value = some 0

/-- A bound that is a 64-bit integer, or a number that no amount is beyond. -/
def BoundFits (rel : ℚ → ℚ → Prop) (extreme : Int64) (bound : Option JsonValue) : Prop :=
  ∀ x, bound = some x → x.asI64 ≠ none ∨ ∃ b, x.value = some b ∧ rel b extreme.toInt

/-- Both bounds are 64-bit integers, and no amount is between them. -/
def EmptyRange (q : JsonValue) : Prop :=
  ∃ lo hi, (q.get "min_amount").bind JsonValue.asI64 = some lo ∧
    (q.get "max_amount").bind JsonValue.asI64 = some hi ∧ hi < lo

/-- A filter whose bounds fit, and whose category is a byte unless nothing can be selected. -/
structure FilterFits (q : JsonValue) : Prop where
  minAmount : BoundFits (· ≤ ·) Int64.minValue (q.get "min_amount")
  maxAmount : BoundFits (· ≥ ·) Int64.maxValue (q.get "max_amount")
  category : (∀ x, q.get "category" = some x → IsByte x) ∨ EmptyRange q

/-! ## Bodies -/

section Bodies

variable {v x : JsonValue} {r : GrainRec}

lemma storedCategory_eq (r : GrainRec) : storedCategory r = r.category.toNat := by
  rw [storedCategory, GrainRec.value, decodeVal_encodeVal]

lemma storedAmount_eq (r : GrainRec) : storedAmount r = r.amount.toInt := by
  rw [storedAmount, GrainRec.value, decodeVal_encodeVal]

/-- The fields of a grain. -/
lemma grainFromValue_eq_some (h : grainFromValue v = some r) :
    r.category = (((v.get "category").bind JsonValue.asU64).getD 0).setWidth 8 ∧
      r.amount = ((v.get "amount").bind JsonValue.asI64).getD 0 := by
  obtain ⟨sid, -, hsid⟩ := Option.bind_eq_some_iff.mp h
  obtain ⟨text, -, rfl⟩ := Option.map_eq_some_iff.mp hsid
  exact ⟨rfl, rfl⟩

/-- What is cut to 8 bits is kept when it is a byte. -/
lemma toNat_setWidth_eq_iff {n : U64} : (n.setWidth 8).toNat = n.toNat ↔ n.toNat < 2 ^ 8 := by
  rw [BitVec.toNat_setWidth]
  exact ⟨fun h => h ▸ Nat.mod_lt _ (by decide), Nat.mod_eq_of_lt⟩

lemma category_kept_iff :
    x.value = some (((x.asU64.getD 0).setWidth 8).toNat : ℚ) ↔ IsByte x ∨ x.value = some 0 := by
  cases hx : x.asU64 with
  | none =>
    have hnot : ¬IsByte x := fun ⟨n, hn, _⟩ => by rw [hx] at hn; cases hn
    rw [or_iff_right hnot]
    rfl
  | some n =>
    have hvalue := JsonValue.value_of_asU64 hx
    have hbyte : IsByte x ↔ n.toNat < 2 ^ 8 := by
      rw [IsByte, hx]
      simp
    rw [hvalue, hbyte, Option.getD_some, Option.some.injEq, Option.some.injEq, Nat.cast_inj,
      eq_comm, toNat_setWidth_eq_iff]
    refine ⟨Or.inl, fun h => h.elim id fun hzero => ?_⟩
    rw [Nat.cast_eq_zero.mp hzero]
    decide

lemma amount_kept_iff :
    x.value = some ((x.asI64.getD 0).toInt : ℚ) ↔ x.asI64 ≠ none ∨ x.value = some 0 := by
  cases hx : x.asI64 with
  | none =>
    rw [or_iff_right (fun h => h rfl)]
    simp
  | some n =>
    rw [JsonValue.value_of_asI64 hx]
    simp

/-- The numbers of an accepted grain are kept exactly when they fit. -/
lemma keepsNumbers_iff (h : grainFromValue v = some r) : KeepsNumbers v r ↔ GrainFits v := by
  obtain ⟨hcategory, hamount⟩ := grainFromValue_eq_some h
  have hcat : ∀ x, v.get "category" = some x →
      (x.value = some (storedCategory r) ↔ IsByte x ∨ x.value = some 0) := by
    intro x hx
    rw [storedCategory_eq, hcategory, hx, Option.bind_some, category_kept_iff]
  have ham : ∀ x, v.get "amount" = some x →
      (x.value = some (storedAmount r) ↔ x.asI64 ≠ none ∨ x.value = some 0) := by
    intro x hx
    rw [storedAmount_eq, hamount, hx, Option.bind_some, amount_kept_iff]
  constructor
  · rintro ⟨hc, ha⟩
    exact ⟨fun x hx => (hcat x hx).mp (hc x hx), fun x hx => (ham x hx).mp (ha x hx)⟩
  · rintro ⟨hc, ha⟩
    exact ⟨fun x hx => (hcat x hx).mpr (hc x hx), fun x hx => (ham x hx).mpr (ha x hx)⟩

/-- Numbers that are kept, or left out, are the numbers given. -/
lemma KeepsNumbers.given_eq (hk : KeepsNumbers v r) (h : grainFromValue v = some r) :
    given v "category" = some (r.category.toNat : ℚ) ∧
      given v "amount" = some (r.amount.toInt : ℚ) := by
  obtain ⟨hcategory, hamount⟩ := grainFromValue_eq_some h
  constructor
  · unfold given
    cases hx : v.get "category" with
    | none =>
      rw [hcategory, hx]
      rfl
    | some x => exact storedCategory_eq r ▸ hk.category x hx
  · unfold given
    cases hx : v.get "amount" with
    | none =>
      rw [hamount, hx]
      rfl
    | some x => exact storedAmount_eq r ▸ hk.amount x hx

variable {fromStr : String → Except String JsonValue} {body : String} {recs : List GrainRec}

/-- A loop over grains that ends has read its first grain and the others. -/
lemma exists_of_grain_cons {grain : Option GrainRec} {rest : Except String (List GrainRec)}
    {e : String}
    (h : (match grain with
      | none => .error e
      | some r => rest.map (r :: ·)) = Except.ok recs) :
    ∃ r rs, grain = some r ∧ rest = .ok rs ∧ recs = r :: rs := by
  cases grain with
  | none => cases h
  | some r =>
    cases rest with
    | error e => cases h
    | ok rs =>
      cases h
      exact ⟨r, rs, rfl, rfl, rfl⟩

lemma forall₂_of_grainsFromValues {vs : List JsonValue} (h : grainsFromValues vs = .ok recs) :
    List.Forall₂ (fun v r => grainFromValue v = some r) vs recs := by
  induction vs generalizing recs with
  | nil =>
    cases h
    exact .nil
  | cons v vs ih =>
    rw [grainsFromValues] at h
    obtain ⟨r, rs, hv, hvs, rfl⟩ := exists_of_grain_cons h
    exact .cons hv (ih hvs)

lemma forall₂_of_grainsFromLines {i : ℕ} {ls : List (List Char)}
    (h : grainsFromLines fromStr i ls = .ok recs) :
    List.Forall₂ (fun v r => grainFromValue v = some r)
      (ls.filterMap fun line =>
        if trim line = [] then none else (fromStr (String.ofList (trim line))).toOption) recs := by
  induction ls generalizing i recs with
  | nil =>
    cases h
    exact .nil
  | cons line ls ih =>
    rw [grainsFromLines] at h
    rw [List.filterMap_cons]
    by_cases hblank : trim line = []
    · rw [if_pos hblank] at h ⊢
      exact ih h
    · rw [if_neg hblank] at h ⊢
      cases hv : fromStr (String.ofList (trim line)) with
      | error e =>
        rw [hv] at h
        cases h
      | ok v =>
        rw [hv] at h
        obtain ⟨r, rs, hr, hrest, rfl⟩ := exists_of_grain_cons h
        exact .cons hr (ih hrest)

/-- An accepted body has one record for each of its grains. -/
theorem forall₂_of_parseGrains (h : parseGrains fromStr body = .ok recs) :
    List.Forall₂ (fun v r => grainFromValue v = some r) (grainValues fromStr body) recs := by
  rw [parseGrains] at h
  rw [grainValues]
  cases hbody : fromStr body with
  | error e =>
    rw [hbody] at h
    dsimp only at h ⊢
    cases hlines : grainsFromLines fromStr 0 (lines body) with
    | error e =>
      rw [hlines] at h
      cases h
    | ok rs =>
      rw [hlines] at h
      cases rs with
      | nil => cases h
      | cons r rs =>
        cases h
        exact forall₂_of_grainsFromLines hlines
  | ok v =>
    rw [hbody] at h
    cases v with
    | null => cases h
    | bool b => cases h
    | number x => cases h
    | string s => cases h
    | array items => exact forall₂_of_grainsFromValues h
    | object fields =>
      dsimp only at h ⊢
      cases hitems : ((JsonValue.object fields).get "grains").bind JsonValue.asArray with
      | none =>
        rw [hitems] at h
        exact forall₂_of_grainsFromValues h
      | some items =>
        rw [hitems] at h
        exact forall₂_of_grainsFromValues h

end Bodies

/-! ## Filters -/

section Filters

/-- The limit of a bound that is an integer holds, when the bound does. -/
lemma BoundHolds.of_asI64 {rel : ℚ → ℚ → Prop} {bound : Option JsonValue} {a : ℚ}
    (h : BoundHolds rel bound a) {n : Int64} (hn : bound.bind JsonValue.asI64 = some n) :
    rel n.toInt a := by
  obtain ⟨x, hx, hint⟩ := Option.bind_eq_some_iff.mp hn
  obtain ⟨b, hb, hrel⟩ := h x hx
  rw [JsonValue.value_of_asI64 hint, Option.some.injEq] at hb
  rwa [hb]

/-- A bound that fits holds when its integer does; other bounds that fit hold of all amounts. -/
lemma BoundFits.holds {rel : ℚ → ℚ → Prop} {extreme : Int64} {bound : Option JsonValue}
    (h : BoundFits rel extreme bound) {a : ℚ} (hextreme : ∀ b, rel b extreme.toInt → rel b a)
    (hint : ∀ n, bound.bind JsonValue.asI64 = some n → rel n.toInt a) : BoundHolds rel bound a := by
  intro x hx
  rcases h x hx with hsome | ⟨b, hb, hrel⟩
  · obtain ⟨n, hn⟩ := Option.ne_none_iff_exists'.mp hsome
    exact ⟨n.toInt, JsonValue.value_of_asI64 hn, hint n (by rw [hx, Option.bind_some, hn])⟩
  · exact ⟨b, hb, hextreme b hrel⟩

/-- A bound that does not fit counts as absent, and does not hold of the extreme amount. -/
lemma not_holds_of_not_fits {rel : ℚ → ℚ → Prop} {extreme : Int64} {bound : Option JsonValue}
    (h : ¬BoundFits rel extreme bound) :
    bound.bind JsonValue.asI64 = none ∧ ¬BoundHolds rel bound extreme.toInt := by
  obtain ⟨x, hbad⟩ := not_forall.mp h
  obtain ⟨hx, hnot⟩ := Classical.not_imp.mp hbad
  obtain ⟨hnone, hrel⟩ := not_or.mp hnot
  refine ⟨by rw [hx, Option.bind_some]; exact not_not.mp hnone, fun hholds => hrel (hholds x hx)⟩

variable {q : JsonValue} {args : QueryArgs}

/-- A category that may be given in a filter is that of the grain. -/
def CategoryHolds (category : Option JsonValue) (c : Byte) : Prop :=
  ∀ x, category = some x → x.value = some (c.toNat : ℚ)

/-- What the filter makes of it. -/
def CategoryPasses (category : Option JsonValue) (c : Byte) : Prop :=
  ∀ n, category.bind JsonValue.asU64 = some n → c = n.setWidth 8

lemma CategoryHolds.passes {category : Option JsonValue} {c : Byte}
    (h : CategoryHolds category c) : CategoryPasses category c := by
  intro n hn
  obtain ⟨x, hx, hint⟩ := Option.bind_eq_some_iff.mp hn
  have hvalue := h x hx
  rw [JsonValue.value_of_asU64 hint, Option.some.injEq, Nat.cast_inj] at hvalue
  have hlt : n.toNat < 2 ^ 8 := hvalue ▸ c.isLt
  exact BitVec.eq_of_toNat_eq (hvalue.symm.trans (toNat_setWidth_eq_iff.mpr hlt).symm)

lemma CategoryPasses.holds {category : Option JsonValue} {c : Byte}
    (h : CategoryPasses category c) (hbyte : ∀ x, category = some x → IsByte x) :
    CategoryHolds category c := by
  intro x hx
  obtain ⟨n, hn, hlt⟩ := hbyte x hx
  rw [JsonValue.value_of_asU64 hn, h n (by rw [hx, Option.bind_some, hn]),
    toNat_setWidth_eq_iff.mpr hlt]

/-- Some category passes. -/
lemma exists_categoryPasses (category : Option JsonValue) : ∃ c, CategoryPasses category c := by
  cases hn : category.bind JsonValue.asU64 with
  | none => exact ⟨0, fun n h => by rw [hn] at h; cases h⟩
  | some n => exact ⟨n.setWidth 8, fun n' h => by rw [hn] at h; rw [Option.some.inj h]⟩

/-- When the category of a filter is no byte, a category passes that is another one. -/
lemma exists_passes_not_holds {category : Option JsonValue}
    (h : ¬∀ x, category = some x → IsByte x) :
    ∃ c, CategoryPasses category c ∧ ¬CategoryHolds category c := by
  obtain ⟨x, hbad⟩ := not_forall.mp h
  obtain ⟨rfl, hbyte⟩ := Classical.not_imp.mp hbad
  cases hn : x.asU64 with
  | none =>
    -- every category passes, and no two of them are the one given
    have hpasses : ∀ c, CategoryPasses (some x) c := by
      intro c n h
      rw [Option.bind_some, hn] at h
      cases h
    by_cases hzero : CategoryHolds (some x) 0
    · refine ⟨1, hpasses 1, ?_⟩
      intro hone
      have heq := (hzero x rfl).symm.trans (hone x rfl)
      exact absurd heq (by decide)
    · exact ⟨0, hpasses 0, hzero⟩
  | some n =>
    refine ⟨n.setWidth 8, fun n' h => ?_, fun hholds => hbyte ⟨n, hn, ?_⟩⟩
    · rw [Option.bind_some, hn] at h
      rw [Option.some.inj h]
    · have hvalue := hholds x rfl
      rw [JsonValue.value_of_asU64 hn, Option.some.injEq, Nat.cast_inj] at hvalue
      exact toNat_setWidth_eq_iff.mp hvalue.symm

/-- What a query's filter lets pass. -/
lemma passes_iff (hargs : QueryArgs.ofValue q = .ok args) {g : Grain} {r : GrainRec}
    (hg : g.val = .bytes r.value) :
    args.passes g ↔ CategoryPasses (q.get "category") r.category ∧
      (∀ lo, (q.get "min_amount").bind JsonValue.asI64 = some lo → lo ≤ r.amount) ∧
      (∀ hi, (q.get "max_amount").bind JsonValue.asI64 = some hi → r.amount ≤ hi) := by
  rw [QueryArgs.ofValue] at hargs
  split at hargs
  · cases hargs
  cases hargs
  rw [QueryArgs.passes, Store.passes, hg, GrainRec.value, decodeVal_encodeVal]
  simp only [Bool.and_eq_true, Option.all_eq_true, beq_iff_eq, decide_eq_true_eq,
    Option.map_eq_some_iff, forall_exists_index, and_imp, forall_apply_eq_imp_iff₂, CategoryPasses,
    and_assoc]

/-- What it selects, of a grain whose numbers are kept. -/
lemma selects_iff {v : JsonValue} {r : GrainRec} (hv : grainFromValue v = some r)
    (hk : KeepsNumbers v r) :
    Selects q v ↔ CategoryHolds (q.get "category") r.category ∧
      BoundHolds (· ≤ ·) (q.get "min_amount") r.amount.toInt ∧
      BoundHolds (· ≥ ·) (q.get "max_amount") r.amount.toInt := by
  obtain ⟨hcategory, hamount⟩ := hk.given_eq hv
  constructor
  · rintro ⟨hc, ⟨lo, hlo, hmin⟩, ⟨hi, hhi, hmax⟩⟩
    obtain rfl := Option.some.inj (hamount.symm.trans hlo)
    obtain rfl := Option.some.inj (hamount.symm.trans hhi)
    refine ⟨?_, hmin, hmax⟩
    intro x hx
    obtain ⟨c, hvalue, hgiven⟩ := hc x hx
    rw [hvalue, ← hgiven, hcategory]
  · rintro ⟨hc, hmin, hmax⟩
    exact ⟨fun x hx => ⟨_, hc x hx, hcategory⟩, ⟨_, hamount, hmin⟩, ⟨_, hamount, hmax⟩⟩

/-- A grain of every category and amount is accepted and stored as it is given. -/
lemma exists_kept (c : Byte) (a : Int64) :
    ∃ v r, grainFromValue v = some r ∧ KeepsNumbers v r ∧ r.category = c ∧ r.amount = a := by
  have hcut : (c.setWidth 64).setWidth 8 = c := by
    rw [BitVec.setWidth_setWidth_of_le _ (by decide), BitVec.setWidth_eq]
  let v : JsonValue := .object [("sid", .number (.posInt 0)),
    ("category", .number (.posInt (c.setWidth 64))),
    ("amount", .number (.ofInt64 a)), ("text", .string "")]
  have hcategory : v.get "category" = some (.number (.posInt (c.setWidth 64))) := rfl
  have hamount : v.get "amount" = some (.number (.ofInt64 a)) := rfl
  have hint : JsonValue.asI64 (.number (.ofInt64 a)) = some a := JsonNumber.asI64_ofInt64 a
  have hv : grainFromValue v = some ⟨0, c, a, ""⟩ := by
    have hfields : grainFromValue v = some ⟨0, (c.setWidth 64).setWidth 8,
        (JsonValue.asI64 (.number (.ofInt64 a))).getD 0, ""⟩ := rfl
    rw [hfields, hcut, hint]
    rfl
  refine ⟨v, _, hv, (keepsNumbers_iff hv).mpr ⟨fun x hx => ?_, fun x hx => ?_⟩, rfl, rfl⟩
  · rw [hcategory, Option.some.injEq] at hx
    subst hx
    refine Or.inl ⟨c.setWidth 64, rfl, ?_⟩
    rw [← toNat_setWidth_eq_iff, hcut, BitVec.toNat_setWidth_of_le (by decide)]
  · rw [hamount, Option.some.injEq] at hx
    subst hx
    rw [hint]
    exact Or.inl (Option.some_ne_none a)

lemma toInt_cast_le {m n : Int64} : (m.toInt : ℚ) ≤ n.toInt ↔ m ≤ n := by
  rw [Int64.le_iff_toInt_le, Int.cast_le]

lemma minValue_le (a : Int64) : Int64.minValue ≤ a :=
  Int64.le_iff_toInt_le.mpr (Int64.minValue_le_toInt a)

lemma le_maxValue (a : Int64) : a ≤ Int64.maxValue := Int64.le_iff_toInt_le.mpr (Int64.toInt_le a)

/-- The amounts that pass the range of a filter, if any. -/
lemma exists_between (q : JsonValue) : EmptyRange q ∨ ∃ a : Int64,
    (∀ lo, (q.get "min_amount").bind JsonValue.asI64 = some lo → lo ≤ a) ∧
      (∀ hi, (q.get "max_amount").bind JsonValue.asI64 = some hi → a ≤ hi) := by
  cases hmin : (q.get "min_amount").bind JsonValue.asI64 with
  | none =>
    exact Or.inr ⟨Int64.minValue, nofun, fun hi _ => minValue_le hi⟩
  | some lo =>
    cases hmax : (q.get "max_amount").bind JsonValue.asI64 with
    | none =>
      exact Or.inr ⟨Int64.maxValue, fun lo' _ => le_maxValue lo', nofun⟩
    | some hi =>
      by_cases hle : lo ≤ hi
      · refine Or.inr ⟨lo, fun lo' h => ?_, fun hi' h => ?_⟩
        · rw [Option.some.inj h]
          exact Int64.le_refl lo'
        · rwa [← Option.some.inj h]
      · exact Or.inl ⟨lo, hi, hmin, hmax, Int64.not_le.mp hle⟩

/-- What an exact filter lets pass, of whatever category and amount, it selects. -/
lemma FilterExact.holds (h : FilterExact q args) (hargs : QueryArgs.ofValue q = .ok args) {c : Byte}
    {a : Int64} (hc : CategoryPasses (q.get "category") c)
    (hmin : ∀ lo, (q.get "min_amount").bind JsonValue.asI64 = some lo → lo ≤ a)
    (hmax : ∀ hi, (q.get "max_amount").bind JsonValue.asI64 = some hi → a ≤ hi) :
    CategoryHolds (q.get "category") c ∧
      BoundHolds (· ≤ ·) (q.get "min_amount") a.toInt ∧
      BoundHolds (· ≥ ·) (q.get "max_amount") a.toInt := by
  obtain ⟨v, r, hv, hk, rfl, rfl⟩ := exists_kept c a
  have hpasses := (passes_iff hargs (g := ⟨0, 0, .bytes r.value, 0, 0, 0⟩) rfl).mpr
    ⟨hc, hmin, hmax⟩
  exact (selects_iff hv hk).mp ((h v r hv hk _ rfl).mp hpasses)

/-- An exact filter fits: where it does not, it lets pass some category and amount that it does not
select. -/
lemma FilterExact.fits (h : FilterExact q args) (hargs : QueryArgs.ofValue q = .ok args) :
    FilterFits q := by
  obtain ⟨c, hc⟩ := exists_categoryPasses (q.get "category")
  refine ⟨?_, ?_, ?_⟩
  · by_contra hbad
    obtain ⟨hnone, hnot⟩ := not_holds_of_not_fits hbad
    refine hnot (h.holds hargs (a := Int64.minValue) hc ?_ fun hi _ => minValue_le hi).2.1
    rw [hnone]
    exact nofun
  · by_contra hbad
    obtain ⟨hnone, hnot⟩ := not_holds_of_not_fits hbad
    refine hnot (h.holds hargs (a := Int64.maxValue) hc (fun lo _ => le_maxValue lo) ?_).2.2
    rw [hnone]
    exact nofun
  · rcases exists_between q with hempty | ⟨a, hmin, hmax⟩
    · exact Or.inr hempty
    · refine Or.inl (Classical.not_not.mp fun hbad => ?_)
      obtain ⟨c, hc, hnot⟩ := exists_passes_not_holds hbad
      exact hnot (h.holds hargs hc hmin hmax).1

/-- A filter that fits is exact. -/
lemma FilterFits.exact (h : FilterFits q) (hargs : QueryArgs.ofValue q = .ok args) :
    FilterExact q args := by
  intro v r hv hk g hg
  rw [passes_iff hargs hg, selects_iff hv hk]
  constructor
  · rintro ⟨hc, hlo, hhi⟩
    refine ⟨?_, ?_, ?_⟩
    · rcases h.category with hbyte | ⟨lo, hi, hlo', hhi', hlt⟩
      · exact hc.holds hbyte
      · exact absurd hlt (Int64.not_lt.mpr (Int64.le_trans (hlo lo hlo') (hhi hi hhi')))
    · exact h.minAmount.holds (fun b hb => hb.trans (toInt_cast_le.mpr (minValue_le _)))
        fun n hn => toInt_cast_le.mpr (hlo n hn)
    · exact h.maxAmount.holds (fun b hb => (toInt_cast_le.mpr (le_maxValue _)).trans hb)
        fun n hn => toInt_cast_le.mpr (hhi n hn)
  · rintro ⟨hc, hlo, hhi⟩
    exact ⟨hc.passes, fun n hn => toInt_cast_le.mp (hlo.of_asI64 hn),
      fun n hn => toInt_cast_le.mp (hhi.of_asI64 hn)⟩

/-- A filter selects exactly what it lets pass when it fits, and only then. -/
theorem filterExact_iff (hargs : QueryArgs.ofValue q = .ok args) :
    FilterExact q args ↔ FilterFits q := ⟨fun h => h.fits hargs, fun h => h.exact hargs⟩

end Filters

/-! ## Requests -/

/-- Take an accepted body, whatever parses its JSON texts, and an accepted query.  The numbers
present in the grains of the body are all stored as given exactly when they are integers of the
width of their fields, or zero in any form.  The filter of the query returns, of the grains stored
as given, those it selects exactly when its bounds are 64-bit integers (or numbers that no amount is
beyond) and its category is an integer from 0 to 255, or its range is empty. -/
theorem numbers_exact_iff {fromStr : String → Except String JsonValue} {body : String}
    {recs : List GrainRec} (hbody : parseGrains fromStr body = .ok recs) {q : JsonValue}
    {args : QueryArgs} (hargs : QueryArgs.ofValue q = .ok args) :
    (List.Forall₂ KeepsNumbers (grainValues fromStr body) recs ↔
        ∀ v ∈ grainValues fromStr body, GrainFits v) ∧
      (FilterExact q args ↔ FilterFits q) := by
  refine ⟨?_, filterExact_iff hargs⟩
  have hall := forall₂_of_parseGrains hbody
  generalize grainValues fromStr body = values at hall ⊢
  clear hbody
  induction hall with
  | nil => simp
  | @cons v r vs rs hv _ ih =>
    rw [List.forall₂_cons, List.forall_mem_cons, keepsNumbers_iff hv]
    exact and_congr_right fun _ => ih

namespace NumbersExample

/-- `[\x7b"sid":1,"category":300,"amount":1.5,"text":"x"\x7d]`, as a value. -/
def cut : JsonValue := .array [.object [("amount", .number (.float (3 / 2))),
  ("category", .number (.posInt 300)), ("sid", .number (.posInt 1)), ("text", .string "x")]]

/-- `[\x7b"sid":1,"category":7,"amount":-5,"text":"x"\x7d]`, as a value. -/
def kept : JsonValue := .array [.object [("amount", .number (.negInt (-5) (by decide))),
  ("category", .number (.posInt 7)), ("sid", .number (.posInt 1)), ("text", .string "x")]]

/-- The parser on these two texts. -/
def fromStr (s : String) : Except String JsonValue :=
  if s = "[\x7b\"sid\":1,\"category\":300,\"amount\":1.5,\"text\":\"x\"\x7d]" then .ok cut
  else if s = "[\x7b\"sid\":1,\"category\":7,\"amount\":-5,\"text\":\"x\"\x7d]" then .ok kept
  else .error "expected value at line 1 column 1"

/-- A query for a category. -/
def ask (category : U64) : JsonValue :=
  .object [("category", .number (.posInt category)), ("text", .string "x")]

end NumbersExample

open NumbersExample in
/-- The category 300 is stored as 44 and the amount 1.5 as 0, and a query for the category 300
returns grains of the category 44. -/
theorem numbers_not_exact :
    let body := "[\x7b\"sid\":1,\"category\":300,\"amount\":1.5,\"text\":\"x\"\x7d]"
    parseGrains fromStr body = .ok [⟨1, 44, 0, "x"⟩] ∧
      ¬List.Forall₂ KeepsNumbers (grainValues fromStr body) [⟨1, 44, 0, "x"⟩] ∧
      QueryArgs.ofValue (ask 300) = .ok ⟨"x", some 44, none, none, 5⟩ ∧
      ¬FilterExact (ask 300) ⟨"x", some 44, none, none, 5⟩ := by
  intro body
  have hvalues : grainValues fromStr body = [.object [("amount", .number (.float (3 / 2))),
      ("category", .number (.posInt 300)), ("sid", .number (.posInt 1)),
      ("text", .string "x")]] := rfl
  refine ⟨rfl, ?_, rfl, ?_⟩
  · intro h
    rw [hvalues, List.forall₂_cons] at h
    have hamount := h.1.amount _ rfl
    rw [storedAmount_eq] at hamount
    have hzero : (3 / 2 : ℚ) = 0 := Option.some.inj hamount
    exact absurd hzero (by norm_num)
  · intro h
    rcases ((filterExact_iff rfl).mp h).category with hbyte | ⟨lo, hi, hlo, -⟩
    · obtain ⟨n, hn, hlt⟩ := hbyte _ rfl
      obtain rfl := Option.some.inj hn
      exact absurd hlt (by decide)
    · cases hlo

open NumbersExample in
theorem numbers_exact_iff_one :
    let body := "[\x7b\"sid\":1,\"category\":7,\"amount\":-5,\"text\":\"x\"\x7d]"
    (List.Forall₂ KeepsNumbers (grainValues fromStr body) [⟨1, 7, -5, "x"⟩] ↔
        ∀ v ∈ grainValues fromStr body, GrainFits v) ∧
      (FilterExact (ask 7) ⟨"x", some 7, none, none, 5⟩ ↔ FilterFits (ask 7)) :=
  numbers_exact_iff rfl rfl

end GrainStore
