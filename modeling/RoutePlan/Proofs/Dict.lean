import RoutePlan.Dict

/-!
What is read from dictionaries: after their values are replaced, and after one is laid over another.
What is read from a dictionary in the order of its keys determines it.
-/
namespace RoutePlan

namespace Dict
variable {α β : Type _}

theorem get?_first (key : Text) (value : α) (rest : Dict α) :
    get? ((key, value) :: rest) key = some value := by
  rw [get?_cons, if_pos rfl]

theorem get?_eq_none_iff (d : Dict α) (name : Text) : d.get? name = none ↔ name ∉ d.keys := by
  induction d with
  | nil => simp [get?, keys]
  | cons entry rest ih =>
    obtain ⟨key, value⟩ := entry
    simp only [get?_cons, keys, List.map_cons, List.mem_cons, not_or]
    split
    · rename_i same
      simp [same]
    · rename_i differ
      rw [ih]
      exact ⟨fun absent => ⟨differ, absent⟩, fun absent => absent.2⟩

theorem get?_map (f : α → β) (d : Dict α) (name : Text) :
    get? (d.map fun (key, value) => (key, f value)) name = (d.get? name).map f := by
  induction d with
  | nil => rfl
  | cons entry rest ih =>
    obtain ⟨key, value⟩ := entry
    rw [List.map_cons, get?_cons, get?_cons, ih]
    split <;> rfl

theorem get?_eq_none_of_precedes {key : Text} {value : α} {rest : Dict α}
    (ordered : Ordered ((key, value) :: rest)) {name : Text} (before : Text.precedes name key) :
    get? ((key, value) :: rest) name = none := by
  rw [get?_eq_none_iff, keys, List.map_cons, List.mem_cons, not_or]
  refine ⟨Text.ne_of_precedes before, fun member => ?_⟩
  have above : Text.precedes key name := (List.pairwise_cons.mp ordered).1 name member
  exact Text.ne_of_precedes (Text.precedes_trans before above) rfl

theorem get?_rest_of_ordered {key : Text} {value : α} {rest : Dict α}
    (ordered : Ordered ((key, value) :: rest)) : get? rest key = none := by
  rw [get?_eq_none_iff]
  intro member
  exact Text.ne_of_precedes ((List.pairwise_cons.mp ordered).1 key member) rfl

theorem get?_overlay {base top : Dict α} (ordered : top.Ordered) (name : Text) :
    (base.overlay top).get? name = (top.get? name).or (base.get? name) := by
  induction top generalizing base with
  | nil => rfl
  | cons entry rest ih =>
    obtain ⟨key, value⟩ := entry
    have laid : (base.overlay ((key, value) :: rest)).get? name =
        (get? rest name).or ((base.insert key value).get? name) :=
      ih (List.pairwise_cons.mp ordered).2
    rw [laid, get?_insert, get?_cons]
    split
    · rename_i same
      rw [same, get?_rest_of_ordered ordered]
      rfl
    · rfl

theorem get?_overlay_reverse (base d : Dict α) (name : Text) :
    (base.overlay d.reverse).get? name = (d.get? name).or (base.get? name) := by
  induction d with
  | nil => rfl
  | cons entry rest ih =>
    obtain ⟨key, value⟩ := entry
    have laid : base.overlay ((key, value) :: rest).reverse =
        (base.overlay rest.reverse).insert key value := by
      simp [overlay, List.foldl_append]
    rw [laid, get?_insert, get?_cons, ih]
    split <;> rfl

theorem Ordered.same_first {key other : Text} {value otherValue : α} {rest others : Dict α}
    (ordered : Ordered ((key, value) :: rest))
    (othersOrdered : Ordered ((other, otherValue) :: others))
    (same : ∀ name, get? ((key, value) :: rest) name = get? ((other, otherValue) :: others) name) :
    key = other ∧ value = otherValue := by
  have here := same key
  have there := same other
  rw [get?_first] at here there
  by_cases equal : key = other
  · subst equal
    rw [get?_first] at here
    exact ⟨rfl, Option.some.inj here⟩
  · -- A key that comes before the other one is read on one side only.
    rcases Text.precedes_or_precedes equal with before | before
    · rw [get?_eq_none_of_precedes othersOrdered before] at here
      cases here
    · rw [get?_eq_none_of_precedes ordered before] at there
      cases there

theorem Ordered.same_rest {key : Text} {value : α} {rest others : Dict α}
    (ordered : Ordered ((key, value) :: rest)) (othersOrdered : Ordered ((key, value) :: others))
    (same : ∀ name, get? ((key, value) :: rest) name = get? ((key, value) :: others) name)
    (name : Text) : get? rest name = get? others name := by
  by_cases known : name = key
  · rw [known, get?_rest_of_ordered ordered, get?_rest_of_ordered othersOrdered]
  · have read := same name
    rwa [get?_cons, get?_cons, if_neg known, if_neg known] at read

/-- What is read under the keys determines a dictionary in their order. -/
theorem Ordered.eq_of_same_lookups {d others : Dict α} (ordered : d.Ordered)
    (othersOrdered : others.Ordered) (same : ∀ name, d.get? name = others.get? name) :
    d = others := by
  induction d generalizing others with
  | nil =>
    cases others with
    | nil => rfl
    | cons entry others =>
      have found := same entry.1
      rw [get?_first] at found
      cases found
  | cons entry rest ih =>
    cases others with
    | nil =>
      have found := same entry.1
      rw [get?_first] at found
      cases found
    | cons other others =>
      obtain ⟨key, value⟩ := entry
      obtain ⟨other, otherValue⟩ := other
      obtain ⟨rfl, rfl⟩ := ordered.same_first othersOrdered same
      rw [ih (List.pairwise_cons.mp ordered).2 (List.pairwise_cons.mp othersOrdered).2
        (ordered.same_rest othersOrdered same)]

theorem Ordered.sublist {d e : Dict α} (ordered : e.Ordered) (part : List.Sublist d e) :
    d.Ordered :=
  List.Pairwise.sublist (part.map Prod.fst) ordered

theorem insert_last {d : Dict α} {key : Text} {value : α}
    (ordered : Ordered (d ++ [(key, value)])) : d.insert key value = d ++ [(key, value)] := by
  induction d with
  | nil => rfl
  | cons entry rest ih =>
    obtain ⟨k, v⟩ := entry
    obtain ⟨before, orderedRest⟩ : (∀ name ∈ keys (rest ++ [(key, value)]), Text.precedes k name) ∧
        Ordered (rest ++ [(key, value)]) := List.pairwise_cons.mp ordered
    have below : Text.precedes k key := before key (by simp [keys])
    have differ : key ≠ k := (Text.ne_of_precedes below).symm
    have notBefore : ¬ Text.precedes key k :=
      fun above => Text.ne_of_precedes (Text.precedes_trans below above) rfl
    rw [insert, if_neg differ, if_neg notBefore, ih orderedRest, List.cons_append]

theorem get?_filter (p : Text → Bool) (d : Dict α) (name : Text) :
    get? (d.filter fun entry => p entry.1) name = if p name then d.get? name else none := by
  induction d with
  | nil => simp [get?]
  | cons entry rest ih =>
    obtain ⟨key, value⟩ := entry
    rw [List.filter_cons, get?_cons]
    by_cases kept : p key
    · rw [if_pos kept, get?_cons, ih]
      split
      · rename_i same
        rw [same, if_pos kept]
      · rfl
    · rw [if_neg kept, ih]
      split
      · rename_i keptName
        have differ : name ≠ key := by
          intro same
          exact kept (same ▸ keptName)
        rw [if_neg differ]
      · rfl

end Dict

namespace OrderedDict
variable {α β : Type _}

theorem get?_insert (d : OrderedDict α) (key : Text) (value : α) (name : Text) :
    (d.insert key value).get? name = if name = key then some value else d.get? name :=
  d.entries.get?_insert key value name

theorem get?_overlay (base top : OrderedDict α) (name : Text) :
    (base.overlay top).get? name = (top.get? name).or (base.get? name) :=
  Dict.get?_overlay top.ordered name

theorem get?_mapValues (f : α → β) (d : OrderedDict α) (name : Text) :
    (d.mapValues f).get? name = (d.get? name).map f :=
  Dict.get?_map f d.entries name

theorem get?_ofDict (d : Dict α) (name : Text) : (ofDict d).get? name = d.get? name := by
  have laid := Dict.get?_overlay_reverse Dict.empty d name
  exact laid.trans (Option.or_none)

theorem contains_iff (d : OrderedDict α) (name : Text) : d.contains name ↔ name ∈ d.keys := by
  have absent : d.get? name = none ↔ name ∉ d.keys := Dict.get?_eq_none_iff d.entries name
  rw [← Decidable.not_not (p := name ∈ d.keys), ← absent, contains, Dict.contains,
    Option.isSome_iff_ne_none]
  rfl

theorem mem_keys_insert (d : OrderedDict α) (key : Text) (value : α) (name : Text) :
    name ∈ (d.insert key value).keys ↔ name = key ∨ name ∈ d.keys :=
  Dict.mem_keys_insert d.entries key value name

theorem ofList_snoc (entries : List (Text × α)) (entry : Text × α) :
    ofList (entries ++ [entry]) = (ofList entries).insert entry.1 entry.2 := by
  simp [ofList, insert, Dict.ofList, Dict.overlay]

@[ext] theorem ext_get? {d others : OrderedDict α}
    (same : ∀ name, d.get? name = others.get? name) : d = others := by
  obtain ⟨entries, ordered⟩ := d
  obtain ⟨others, othersOrdered⟩ := others
  obtain rfl := ordered.eq_of_same_lookups othersOrdered same
  rfl

end OrderedDict
end RoutePlan
