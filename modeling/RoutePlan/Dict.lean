import RoutePlan.Text

/-!
Dictionaries keyed by text, as lists of entries. Storing changes what is read under one key only,
and it keeps the entries in the order of their keys. The dictionaries that have this order, and so
each key once, are a type of their own.
-/
namespace RoutePlan

/-- Entries in any order. Of several entries with one key the first is read. -/
abbrev Dict (α : Type u) := List (Text × α)

namespace Dict
variable {α : Type u} {β : Type v}

def empty : Dict α := []

def get? (d : Dict α) (key : Text) : Option α := d.lookup key

def contains (d : Dict α) (key : Text) : Bool := (d.get? key).isSome

def keys (d : Dict α) : List Text := d.map Prod.fst

def insert (key : Text) (value : α) : Dict α → Dict α
  | [] => [(key, value)]
  | (k, v) :: rest =>
    if key = k then (key, value) :: rest
    else if Text.precedes key k then (key, value) :: (k, v) :: rest
    else (k, v) :: insert key value rest

def overlay (base : Dict α) (top : List (Text × α)) : Dict α :=
  top.foldl (fun d (key, value) => d.insert key value) base

def ofList (entries : List (Text × α)) : Dict α := overlay empty entries

def Ordered (d : Dict α) : Prop := d.keys.Pairwise (Text.precedes · ·)

theorem get?_cons (name key : Text) (value : α) (rest : Dict α) :
    get? ((key, value) :: rest) name = if name = key then some value else get? rest name := by
  by_cases same : name = key
  · simp [get?, same]
  · simp [get?, List.lookup_cons, same, beq_eq_false_iff_ne.2 same]

theorem get?_insert (d : Dict α) (key : Text) (value : α) (name : Text) :
    (d.insert key value).get? name = if name = key then some value else d.get? name := by
  induction d with
  | nil => rw [insert, get?_cons]
  | cons entry rest ih =>
    obtain ⟨k, v⟩ := entry
    unfold insert
    split
    · next same => subst same; simp only [get?_cons]; grind
    · split
      · simp only [get?_cons]
      · simp only [get?_cons, ih]; grind

theorem mem_keys_insert (d : Dict α) (key : Text) (value : α) (name : Text) :
    name ∈ (d.insert key value).keys ↔ name = key ∨ name ∈ d.keys := by
  induction d with
  | nil => simp [insert, keys]
  | cons entry rest ih =>
    obtain ⟨k, v⟩ := entry
    simp only [keys, List.map_cons, List.mem_cons] at ih ⊢
    unfold insert
    split
    · next same => simp [same]
    · split
      · simp
      · simp only [List.map_cons, List.mem_cons, ih]
        grind

theorem Ordered.insert {d : Dict α} (ordered : Ordered d) (key : Text) (value : α) :
    Ordered (d.insert key value) := by
  induction d with
  | nil => simp [Ordered, keys, Dict.insert]
  | cons entry rest ih =>
    obtain ⟨k, v⟩ := entry
    simp only [Ordered, keys, List.map_cons, List.pairwise_cons] at ordered
    unfold Dict.insert
    split
    · next same => subst same; simpa [Ordered, keys] using ordered
    · next other =>
      split
      · next below =>
        simp only [Ordered, keys, List.map_cons, List.pairwise_cons, List.mem_cons]
        refine ⟨fun name there => ?_, ordered⟩
        rcases there with rfl | there
        · exact below
        · exact Text.precedes_trans below (ordered.1 name there)
      · next notBelow =>
        have above : Text.precedes k key := (Text.precedes_or_precedes other).resolve_left notBelow
        simp only [Ordered, keys, List.map_cons, List.pairwise_cons]
        refine ⟨fun name there => ?_, ih ordered.2⟩
        rcases (mem_keys_insert rest key value name).1 there with rfl | there
        · exact above
        · exact ordered.1 name there

theorem Ordered.overlay {base : Dict α} (ordered : Ordered base) (top : List (Text × α)) :
    Ordered (base.overlay top) := by
  induction top generalizing base with
  | nil => exact ordered
  | cons entry rest ih => exact ih (ordered.insert entry.1 entry.2)

theorem ordered_empty : Ordered (empty : Dict α) := List.Pairwise.nil

theorem ordered_ofList (entries : List (Text × α)) : Ordered (ofList entries) :=
  ordered_empty.overlay entries

theorem Ordered.mapValues {d : Dict α} (ordered : Ordered d) (f : α → β) :
    Ordered (d.map fun (key, value) => (key, f value)) := by
  unfold Ordered keys
  rw [List.map_map]
  exact ordered

end Dict

/-- A dictionary in the order of its keys, each key once. -/
structure OrderedDict (α : Type u) where
  entries : Dict α
  ordered : entries.Ordered

namespace OrderedDict
variable {α : Type u} {β : Type v}

def empty : OrderedDict α := ⟨Dict.empty, Dict.ordered_empty⟩

def get? (d : OrderedDict α) (key : Text) : Option α := d.entries.get? key

def contains (d : OrderedDict α) (key : Text) : Bool := d.entries.contains key

def map (f : Text × α → β) (d : OrderedDict α) : List β := d.entries.map f

def keys (d : OrderedDict α) : List Text := d.map Prod.fst

def insert (key : Text) (value : α) (d : OrderedDict α) : OrderedDict α :=
  ⟨d.entries.insert key value, d.ordered.insert key value⟩

def overlay (base top : OrderedDict α) : OrderedDict α :=
  ⟨base.entries.overlay top.entries, base.ordered.overlay top.entries⟩

/-- Of two entries of one key the later is kept. -/
def ofList (entries : List (Text × α)) : OrderedDict α :=
  ⟨Dict.ofList entries, Dict.ordered_ofList entries⟩

/-- Of two entries of one key the first is kept. -/
def ofDict (d : Dict α) : OrderedDict α := ofList d.reverse

def mapValues (f : α → β) (d : OrderedDict α) : OrderedDict β :=
  ⟨d.map fun (key, value) => (key, f value), d.ordered.mapValues f⟩

instance : Coe (Dict α) (OrderedDict α) := ⟨ofDict⟩

instance : CoeOut (OrderedDict α) (Dict α) := ⟨entries⟩

end OrderedDict
end RoutePlan
