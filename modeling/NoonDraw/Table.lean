/-!
# Tables in key order

A `Table κ α` is a finite map from keys to values, kept as the list of its entries in ascending key
order. The order is part of the type, so a table has exactly one representation: two tables with the
same lookups are equal (`Table.ext_get?`), and listing a table is deterministic.

## Main definitions

* `Key`: a type whose `compare` is a linear order that tells any two keys apart.
* `Table`, `Table.get?`, `Table.insert`, `Table.erase`: the map and its three primitive operations.
* `Table.alter`, `Table.modify`, `Table.map`, `Table.filter`, `Table.ofList`, `Table.group`: the
  operations derived from them.
* `KeySet`: a table that holds nothing but its keys.

Every operation has one equation through `get?`, which is how the rest of the library reasons about
it: `get?_insert`, `get?_erase`, `get?_alter`, `get?_modify`, `get?_map`, `get?_filter`.
-/

namespace NoonDraw

universe u v w

/-- A type of table keys: `compare` orders it linearly and answers `eq` on equal keys only. -/
class Key (κ : Type u) extends Ord κ, Std.TransOrd κ, Std.LawfulEqOrd κ

instance : Key Nat where
instance : Key Int where
instance : Key String where
instance {n : Nat} : Key (BitVec n) where

namespace Key

/-- Keys ordered by an injective reading of them into a type that is already ordered. -/
@[reducible] def onReading {κ : Type u} {ρ : Type v} [Key ρ] (read : κ → ρ)
    (injective : ∀ a b, read a = read b → a = b) : Key κ where
  compare a b := compare (read a) (read b)
  eq_swap := Std.OrientedOrd.eq_swap
  isLE_trans := Std.TransOrd.isLE_trans
  compare_self := Std.ReflOrd.compare_self
  eq_of_compare h := injective _ _ (Std.LawfulEqOrd.eq_of_compare h)

end Key

/-- A finite map, held as its entries in ascending order of their keys. -/
structure Table (κ : Type u) (α : Type v) [Key κ] where
  /-- The entries, smallest key first. -/
  entries : List (κ × α)
  /-- Keys ascend strictly, so none occurs twice. -/
  ascending : entries.Pairwise fun a b => compare a.1 b.1 = .lt

namespace Table

/-! ### Entry lists -/

section Entries

variable {κ : Type u} {α : Type v} [Key κ]

/-- The value that an entry list gives a key. -/
def valueOf (k : κ) : List (κ × α) → Option α
  | [] => none
  | e :: rest => if compare k e.1 = .eq then some e.2 else valueOf k rest

/-- Puts an entry at its place in an ascending list, replacing the one with the same key. -/
def put (k : κ) (a : α) : List (κ × α) → List (κ × α)
  | [] => [(k, a)]
  | e :: rest =>
    match compare k e.1 with
    | .lt => (k, a) :: e :: rest
    | .eq => (k, a) :: rest
    | .gt => e :: put k a rest

theorem mem_put {k : κ} {a : α} {e : κ × α} :
    ∀ {es : List (κ × α)}, e ∈ put k a es → e = (k, a) ∨ e ∈ es
  | [], h => .inl (by simpa [put] using h)
  | x :: es, h => by
    unfold put at h
    split at h
    · simpa using h
    · rcases List.mem_cons.1 h with h | h
      · exact .inl h
      · exact .inr (List.mem_cons_of_mem _ h)
    · rcases List.mem_cons.1 h with h | h
      · exact .inr (h ▸ List.mem_cons_self)
      · exact (mem_put h).imp_right (List.mem_cons_of_mem _)

theorem ascending_put {k : κ} {a : α} :
    ∀ {es : List (κ × α)}, es.Pairwise (fun a b => compare a.1 b.1 = .lt) →
      (put k a es).Pairwise fun a b => compare a.1 b.1 = .lt
  | [], _ => by simp [put]
  | x :: es, h => by
    obtain ⟨hx, hes⟩ := List.pairwise_cons.1 h
    unfold put
    split
    next hlt =>
      refine List.pairwise_cons.2 ⟨fun e he => ?_, h⟩
      rcases List.mem_cons.1 he with rfl | he
      · exact hlt
      · exact Std.TransCmp.lt_trans hlt (hx e he)
    next heq =>
      refine List.pairwise_cons.2 ⟨fun e he => ?_, hes⟩
      exact Std.LawfulEqOrd.eq_of_compare heq ▸ hx e he
    next hgt =>
      refine List.pairwise_cons.2 ⟨fun e he => ?_, ascending_put hes⟩
      rcases mem_put he with rfl | he
      · exact Std.OrientedCmp.gt_iff_lt.1 hgt
      · exact hx e he

theorem valueOf_put (k : κ) (a : α) (j : κ) :
    ∀ es : List (κ × α),
      valueOf j (put k a es) = if compare j k = .eq then some a else valueOf j es
  | [] => by simp [put, valueOf]
  | e :: es => by
    unfold put
    split
    next => simp [valueOf]
    next heq =>
      have := Std.LawfulEqOrd.eq_of_compare heq
      subst this
      simp only [valueOf]
      split <;> simp_all
    next hgt =>
      simp only [valueOf, valueOf_put k a j es]
      split
      next hj =>
        have := Std.LawfulEqOrd.eq_of_compare hj
        subst this
        rw [Std.OrientedCmp.gt_iff_lt.1 hgt]
        simp
      next => rfl

theorem valueOf_eq_none {k : κ} :
    ∀ {es : List (κ × α)}, (∀ e ∈ es, compare k e.1 ≠ .eq) → valueOf k es = none
  | [], _ => rfl
  | e :: es, h => by
    rw [valueOf, if_neg (h e List.mem_cons_self)]
    exact valueOf_eq_none fun x hx => h x (List.mem_cons_of_mem _ hx)

theorem valueOf_filter (k : κ) (p : κ × α → Bool) :
    ∀ {es : List (κ × α)}, es.Pairwise (fun a b => compare a.1 b.1 = .lt) →
      valueOf k (es.filter p) = (valueOf k es).filter fun a => p (k, a)
  | [], _ => rfl
  | e :: es, h => by
    obtain ⟨hx, hes⟩ := List.pairwise_cons.1 h
    by_cases hk : compare k e.1 = .eq
    · have := Std.LawfulEqOrd.eq_of_compare hk
      subst this
      by_cases hp : p e
      · simp [hp, valueOf, Option.filter]
      · have hne : valueOf e.1 (es.filter p) = none :=
          valueOf_eq_none fun x hx' => by
            rw [hx x (List.mem_filter.1 hx').1]
            decide
        simp [hp, valueOf, hne, Option.filter]
    · by_cases hp : p e <;> simp [hp, valueOf, hk, valueOf_filter k p hes]

theorem valueOf_eq_some_iff {k : κ} {a : α} :
    ∀ {es : List (κ × α)}, es.Pairwise (fun a b => compare a.1 b.1 = .lt) →
      (valueOf k es = some a ↔ (k, a) ∈ es)
  | [], _ => by simp [valueOf]
  | e :: es, h => by
    obtain ⟨hx, hes⟩ := List.pairwise_cons.1 h
    by_cases hk : compare k e.1 = .eq
    · have hke := Std.LawfulEqOrd.eq_of_compare hk
      have hnot : (k, a) ∉ es := fun hm => by
        have := hx _ hm
        rw [← hke, Std.ReflOrd.compare_self] at this
        contradiction
      obtain ⟨e₁, e₂⟩ := e
      simp only at hke
      subst hke
      simp only [valueOf, Std.ReflOrd.compare_self, if_true, Option.some.injEq, List.mem_cons,
        Prod.mk.injEq, true_and, hnot, or_false]
      exact eq_comm
    · have hke : (k, a) ≠ e := fun h' => hk (by rw [← h']; exact Std.ReflOrd.compare_self)
      simp [valueOf, hk, valueOf_eq_some_iff hes, hke]

/-- An ascending list is determined by the values it gives. -/
theorem entries_eq_of_valueOf :
    ∀ {es fs : List (κ × α)}, es.Pairwise (fun a b => compare a.1 b.1 = .lt) →
      fs.Pairwise (fun a b => compare a.1 b.1 = .lt) →
      (∀ k, valueOf k es = valueOf k fs) → es = fs
  | [], [], _, _, _ => rfl
  | [], f :: fs, _, _, h => by simpa [valueOf] using h f.1
  | e :: es, [], _, _, h => by simpa [valueOf] using h e.1
  | e :: es, f :: fs, he, hf, h => by
    obtain ⟨he₁, he₂⟩ := List.pairwise_cons.1 he
    obtain ⟨hf₁, hf₂⟩ := List.pairwise_cons.1 hf
    have key : e = f := by
      have hef : (e.1, e.2) ∈ f :: fs :=
        (valueOf_eq_some_iff hf).1 ((h e.1).symm.trans (by simp [valueOf]))
      have hfe : (f.1, f.2) ∈ e :: es :=
        (valueOf_eq_some_iff he).1 ((h f.1).trans (by simp [valueOf]))
      rcases List.mem_cons.1 hef with h₁ | h₁
      · exact h₁
      · rcases List.mem_cons.1 hfe with h₂ | h₂
        · exact h₂.symm
        · have := Std.TransCmp.lt_trans (hf₁ _ h₁) (he₁ _ h₂)
          rw [Std.ReflOrd.compare_self] at this
          contradiction
    subst key
    refine congrArg _ (entries_eq_of_valueOf he₂ hf₂ fun k => ?_)
    have hk := h k
    simp only [valueOf] at hk
    split at hk
    next hke =>
      have := Std.LawfulEqOrd.eq_of_compare hke
      subst this
      rw [valueOf_eq_none fun x hx => by rw [he₁ x hx]; decide,
        valueOf_eq_none fun x hx => by rw [hf₁ x hx]; decide]
    next => exact hk

end Entries

/-! ### The operations -/

variable {κ : Type u} {α : Type v} {β : Type w} [Key κ]

/-- Two tables with the same entries are equal. -/
theorem ext {s t : Table κ α} (h : s.entries = t.entries) : s = t := by
  cases s; cases t; cases h; rfl

instance [DecidableEq κ] [DecidableEq α] : DecidableEq (Table κ α) := fun s t =>
  decidable_of_iff (s.entries = t.entries) ⟨ext, fun h => h ▸ rfl⟩

/-- The table without entries. -/
def empty : Table κ α := ⟨[], .nil⟩

instance : EmptyCollection (Table κ α) := ⟨empty⟩
instance : Inhabited (Table κ α) := ⟨empty⟩

/-- The value of a key, if it has one. -/
def get? (t : Table κ α) (k : κ) : Option α := valueOf k t.entries

/-- Whether a key has a value. -/
def contains (t : Table κ α) (k : κ) : Bool := (t.get? k).isSome

/-- Gives a key a value, replacing the one it had. -/
def insert (t : Table κ α) (k : κ) (a : α) : Table κ α :=
  ⟨put k a t.entries, ascending_put t.ascending⟩

/-- Keeps the entries that satisfy a test. -/
def filter (t : Table κ α) (p : κ → α → Bool) : Table κ α :=
  ⟨t.entries.filter fun e => p e.1 e.2, t.ascending.sublist List.filter_sublist⟩

/-- Removes a key. -/
def erase (t : Table κ α) (k : κ) : Table κ α := t.filter fun j _ => compare k j != .eq

/-- Changes the value of a key, `none` standing for no entry. -/
def alter (t : Table κ α) (k : κ) (f : Option α → Option α) : Table κ α :=
  match f (t.get? k) with
  | none => t.erase k
  | some a => t.insert k a

/-- Changes the value of a key that has one. -/
def modify (t : Table κ α) (k : κ) (f : α → α) : Table κ α :=
  match t.get? k with
  | none => t
  | some a => t.insert k (f a)

/-- Changes every value, given its key. -/
def map (t : Table κ α) (f : κ → α → β) : Table κ β :=
  ⟨t.entries.map fun e => (e.1, f e.1 e.2), t.ascending.map _ fun _ _ h => h⟩

/-- The keys, ascending. -/
def keys (t : Table κ α) : List κ := t.entries.map Prod.fst

/-- The values, in the order of their keys. -/
def values (t : Table κ α) : List α := t.entries.map Prod.snd

/-- The number of keys. -/
def size (t : Table κ α) : Nat := t.entries.length

/-- Whether there is no key. -/
def isEmpty (t : Table κ α) : Bool := t.entries.isEmpty

/-- Inserts entries one after another, so a later one replaces an earlier one of its key. -/
def insertAll (t : Table κ α) (es : List (κ × α)) : Table κ α :=
  es.foldl (fun t e => t.insert e.1 e.2) t

/-- The table of a list of entries, the last entry of a key counting. -/
def ofList (es : List (κ × α)) : Table κ α := insertAll ∅ es

/-- The items of a list by their key, each group in the order of the list. -/
def group (key : α → κ) (xs : List α) : Table κ (List α) :=
  xs.foldl (fun t x => t.insert (key x) ((t.get? (key x)).getD [] ++ [x])) ∅

/-! ### What each operation does to a lookup -/

@[simp] theorem get?_empty (k : κ) : (∅ : Table κ α).get? k = none := rfl

theorem ext_get? {s t : Table κ α} (h : ∀ k, s.get? k = t.get? k) : s = t :=
  ext (entries_eq_of_valueOf s.ascending t.ascending h)

theorem get?_eq_some_iff {t : Table κ α} {k : κ} {a : α} :
    t.get? k = some a ↔ (k, a) ∈ t.entries :=
  valueOf_eq_some_iff t.ascending

theorem nodup_keys (t : Table κ α) : t.keys.Nodup := by
  refine List.pairwise_map.2 (t.ascending.imp ?_)
  intro a b before same
  rw [same, Std.ReflOrd.compare_self] at before
  cases before

theorem mem_keys_iff {t : Table κ α} {k : κ} : k ∈ t.keys ↔ (t.get? k).isSome := by
  rw [keys, List.mem_map, Option.isSome_iff_exists]
  constructor
  · rintro ⟨⟨k, a⟩, ha, rfl⟩
    exact ⟨a, get?_eq_some_iff.2 ha⟩
  · rintro ⟨a, found⟩
    exact ⟨(k, a), get?_eq_some_iff.1 found, rfl⟩

/-- The keys and the values stand in the same order. -/
theorem map_get?_keys (t : Table κ α) : t.keys.map t.get? = t.values.map some := by
  rw [keys, values, List.map_map, List.map_map]
  exact List.map_congr_left fun e he => get?_eq_some_iff.2 he

theorem get?_insert (t : Table κ α) (k : κ) (a : α) (j : κ) :
    (t.insert k a).get? j = if compare j k = .eq then some a else t.get? j :=
  valueOf_put k a j t.entries

@[simp] theorem get?_insert_self (t : Table κ α) (k : κ) (a : α) :
    (t.insert k a).get? k = some a := by
  simp [get?_insert]

theorem get?_insert_of_ne (t : Table κ α) {k j : κ} (a : α) (h : j ≠ k) :
    (t.insert k a).get? j = t.get? j := by
  rw [get?_insert, if_neg fun h' => h (Std.LawfulEqOrd.eq_of_compare h')]

theorem get?_filter (t : Table κ α) (p : κ → α → Bool) (k : κ) :
    (t.filter p).get? k = (t.get? k).filter (p k) :=
  valueOf_filter k (fun e => p e.1 e.2) t.ascending

theorem get?_erase (t : Table κ α) (k j : κ) :
    (t.erase k).get? j = if compare j k = .eq then none else t.get? j := by
  rw [erase, get?_filter]
  by_cases h : compare j k = .eq
  · have := Std.LawfulEqOrd.eq_of_compare h
    subst this
    cases t.get? j <;> simp [Option.filter]
  · have h' : compare k j ≠ .eq := fun hc => h (Std.OrientedCmp.eq_symm hc)
    cases t.get? j <;> simp [h, h', Option.filter]

@[simp] theorem get?_erase_self (t : Table κ α) (k : κ) : (t.erase k).get? k = none := by
  simp [get?_erase]

theorem get?_erase_of_ne (t : Table κ α) {k j : κ} (h : j ≠ k) :
    (t.erase k).get? j = t.get? j := by
  rw [get?_erase, if_neg fun h' => h (Std.LawfulEqOrd.eq_of_compare h')]

theorem get?_alter (t : Table κ α) (k : κ) (f : Option α → Option α) (j : κ) :
    (t.alter k f).get? j = if compare j k = .eq then f (t.get? k) else t.get? j := by
  unfold alter
  split
  next h => rw [get?_erase, h]
  next h => rw [get?_insert, h]

theorem get?_modify (t : Table κ α) (k : κ) (f : α → α) (j : κ) :
    (t.modify k f).get? j = if compare j k = .eq then (t.get? k).map f else t.get? j := by
  unfold modify
  split
  next h =>
    split
    next hj => rw [Std.LawfulEqOrd.eq_of_compare hj, h]; rfl
    next => rfl
  next h => rw [get?_insert, h]; rfl

theorem get?_map (t : Table κ α) (f : κ → α → β) (k : κ) :
    (t.map f).get? k = (t.get? k).map (f k) := by
  obtain ⟨es, hes⟩ := t
  simp only [get?, map]
  clear hes
  induction es with
  | nil => rfl
  | cons e es ih =>
    simp only [List.map_cons, valueOf, ih]
    split
    next h => simp [Std.LawfulEqOrd.eq_of_compare h]
    next => rfl

end Table

/-- A finite set of keys, listed in ascending order. -/
abbrev KeySet (κ : Type u) [Key κ] := Table κ Unit

namespace KeySet

variable {κ : Type u} [Key κ]

/-- Adds a key. -/
def add (s : KeySet κ) (k : κ) : KeySet κ := s.insert k ()

/-- The set of the keys in a list. -/
def ofList (ks : List κ) : KeySet κ := ks.foldl add ∅

theorem contains_add (s : KeySet κ) (k j : κ) :
    (s.add k).contains j = (compare j k == .eq || s.contains j) := by
  rw [add, Table.contains, Table.contains, Table.get?_insert]
  by_cases h : compare j k = .eq <;> simp [h]

end KeySet

end NoonDraw
