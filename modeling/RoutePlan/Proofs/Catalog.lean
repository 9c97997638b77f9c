import Mathlib.Data.List.Induction
import RoutePlan.Catalog
import RoutePlan.Proofs.Resource.Failure

/-!
Loading a catalog. Either all entries become resources under names of their own, or the first entry
at fault is reported, and nothing behind it counts.
-/
namespace RoutePlan.Catalog

def names (entries : List Settings) : List Text := entries.map (·.name)

/-- What is wrong with an entry behind the earlier ones: its URL, or else a name that is taken. -/
inductive Fault (earlier : List Settings) (entry : Settings) : CatalogError → Prop where
  | url {reason : RouteError} (rejected : Template.parse entry.url = .error reason) :
      Fault earlier entry (.invalidResource entry.name reason)
  | name {template : Template} (accepted : Template.parse entry.url = .ok template)
      (taken : entry.name ∈ names earlier) :
      Fault earlier entry (.duplicateName entry.name)

def FaultAt (entries : List Settings) (i : Nat) (error : CatalogError) : Prop :=
  ∃ entry, entries[i]? = some entry ∧ Fault (entries.take i) entry error

def FirstFault (entries : List Settings) (i : Nat) (error : CatalogError) : Prop :=
  FaultAt entries i error ∧ ∀ j < i, ∀ other, ¬ FaultAt entries j other

structure Sound (entries : List Settings) : Prop where
  accepted : ∀ entry ∈ entries, ∃ template, Template.parse entry.url = .ok template
  distinct : (names entries).Nodup

/-- Exactly the names of the entries, and under each the resource that its own entry makes. -/
structure Holds (catalog : Catalog) (entries : List Settings) : Prop where
  keys : ∀ name, name ∈ catalog.keys ↔ name ∈ names entries
  made : ∀ entry ∈ entries, ∃ resource, catalog.get? entry.name = some resource ∧
    Resource.new entry.url entry.params entry.actions
      (entry.stripTrailingSlashes.getD true) = .ok resource

/-! ### Faults -/

theorem fault_unique {earlier : List Settings} {entry : Settings} {error other : CatalogError}
    (first : Fault earlier entry error) (second : Fault earlier entry other) : error = other := by
  cases first with
  | url rejected =>
    cases second with
    | url rejected' => rw [Except.error.inj (rejected.symm.trans rejected')]
    | name accepted taken => cases rejected.symm.trans accepted
  | name accepted taken =>
    cases second with
    | url rejected => cases rejected.symm.trans accepted
    | name accepted' taken' => rfl

theorem firstFault_unique {entries : List Settings} {i j : Nat} {error other : CatalogError}
    (first : FirstFault entries i error) (second : FirstFault entries j other) :
    error = other := by
  have notBefore : ¬ i < j := fun before => second.2 i before error first.1
  have notAfter : ¬ j < i := fun after => first.2 j after other second.1
  obtain rfl : i = j := by omega
  obtain ⟨entry, found, fault⟩ := first.1
  obtain ⟨entry', found', fault'⟩ := second.1
  obtain rfl := Option.some.inj (found.symm.trans found')
  exact fault_unique fault fault'

theorem sound_iff_no_fault (entries : List Settings) :
    Sound entries ↔ ∀ i error, ¬ FaultAt entries i error := by
  constructor
  · intro sound i error ⟨entry, found, fault⟩
    cases fault with
    | url rejected =>
      obtain ⟨template, accepted⟩ := sound.accepted entry (List.mem_of_getElem? found)
      cases rejected.symm.trans accepted
    | name accepted taken =>
      obtain ⟨inside, rfl⟩ := List.getElem?_eq_some_iff.mp found
      have distinct := sound.distinct
      rw [← List.take_append_drop i entries, List.drop_eq_getElem_cons inside, names,
        List.map_append] at distinct
      exact List.disjoint_of_nodup_append distinct taken List.mem_cons_self
  · intro noFault
    have accepted : ∀ entry ∈ entries, ∃ template, Template.parse entry.url = .ok template := by
      intro entry member
      obtain ⟨i, found⟩ := List.mem_iff_getElem?.mp member
      cases parsed : Template.parse entry.url with
      | error reason => exact absurd ⟨entry, found, .url parsed⟩ (noFault i _)
      | ok template => exact ⟨template, rfl⟩
    refine ⟨accepted, List.pairwise_iff_getElem.mpr fun i j inside inside' before same => ?_⟩
    simp only [names, List.length_map, List.getElem_map] at inside inside' same
    obtain ⟨template, parsed⟩ := accepted _ (List.getElem_mem inside')
    have taken : entries[j].name ∈ names (entries.take j) := by
      rw [← same]
      exact List.mem_map_of_mem (List.mem_take_iff_getElem.mpr ⟨i, by omega, rfl⟩)
    exact noFault j _ ⟨entries[j], List.getElem?_eq_getElem inside', .name parsed taken⟩

theorem faultAt_congr {entries others : List Settings} {n : Nat}
    (same : others.take n = entries.take n) {i : Nat} (before : i < n) (error : CatalogError) :
    FaultAt others i error ↔ FaultAt entries i error := by
  have entry : others[i]? = entries[i]? := by
    rw [← List.getElem?_take_of_lt before, same, List.getElem?_take_of_lt before]
  have earlier : others.take i = entries.take i := by
    have cut := congrArg (List.take i) same
    rwa [List.take_take, List.take_take, Nat.min_eq_left (by omega)] at cut
  rw [FaultAt, entry, earlier, FaultAt]

/-! ### One entry -/

theorem toResource_eq_error_iff (entry : Settings) (reason : RouteError) :
    entry.toResource = .error reason ↔ Template.parse entry.url = .error reason := by
  unfold Settings.toResource
  rw [(Resource.refusesReserved_new _ _ _ _).fails, (refusesReserved_parse _).fails]

theorem Holds.contains_iff {catalog : Catalog} {entries : List Settings}
    (holds : Holds catalog entries) (name : Text) :
    catalog.contains name ↔ name ∈ names entries :=
  (OrderedDict.contains_iff catalog name).trans (holds.keys name)

theorem Holds.insert {catalog : Catalog} {entries : List Settings}
    (holds : Holds catalog entries) {entry : Settings} {resource : Resource}
    (fresh : entry.name ∉ names entries) (made : entry.toResource = .ok resource) :
    Holds (catalog.insert entry.name resource) (entries ++ [entry]) where
  keys := by
    intro name
    rw [OrderedDict.mem_keys_insert, holds.keys]
    simp [names, or_comm, eq_comm]
  made := by
    intro other member
    rw [OrderedDict.get?_insert]
    rcases List.mem_append.mp member with earlier | last
    · have differs : other.name ≠ entry.name := fun same =>
        fresh (same ▸ List.mem_map_of_mem earlier)
      rw [if_neg differs]
      exact holds.made other earlier
    · obtain rfl := List.mem_singleton.mp last
      rw [if_pos rfl]
      exact ⟨resource, rfl, made⟩

theorem add_outcome {catalog : Catalog} {entries : List Settings}
    (holds : Holds catalog entries) (entry : Settings) :
    (∃ error, add catalog entry = .error error ∧ Fault entries entry error) ∨
    ∃ next, add catalog entry = .ok next ∧ Holds next (entries ++ [entry]) ∧
      ∀ error, ¬ Fault entries entry error := by
  unfold add
  cases made : entry.toResource with
  | error reason =>
    have rejected := (toResource_eq_error_iff entry reason).mp made
    exact Or.inl ⟨_, rfl, .url rejected⟩
  | ok resource =>
    obtain ⟨parsed, -⟩ := Resource.new_eq_ok_iff.mp made
    dsimp only
    split
    · rename_i known
      exact Or.inl ⟨_, rfl, .name parsed ((holds.contains_iff _).mp known)⟩
    · rename_i unknown
      have fresh := mt (holds.contains_iff entry.name).mpr unknown
      refine Or.inr ⟨_, rfl, holds.insert fresh made, fun error fault => ?_⟩
      cases fault with
      | url rejected => cases rejected.symm.trans parsed
      | name accepted taken => exact fresh taken

/-! ### All entries -/

theorem ofSettings_concat (entries : List Settings) (entry : Settings) :
    ofSettings (entries ++ [entry]) = ofSettings entries >>= (add · entry) := by
  unfold ofSettings
  simp only [List.foldlM_append, List.foldlM_cons, List.foldlM_nil, bind_pure]

/-- Loading follows the entries: without a fault so far there is a catalog of them, and a fault ends
it for good. -/
theorem ofSettings_outcome (entries : List Settings) :
    (∃ catalog, ofSettings entries = .ok catalog ∧ Holds catalog entries ∧ Sound entries) ∨
    ∃ error i, ofSettings entries = .error error ∧ i < entries.length ∧
      FirstFault entries i error := by
  induction entries using List.reverseRecOn with
  | nil =>
    exact Or.inl ⟨.empty, rfl, ⟨fun name => Iff.rfl, by simp⟩, ⟨by simp, List.nodup_nil⟩⟩
  | append_singleton entries entry ih =>
    have upTo {i : Nat} (inside : i < entries.length) (error : CatalogError) :
        FaultAt (entries ++ [entry]) i error ↔ FaultAt entries i error := by
      apply faultAt_congr (n := entries.length) _ inside
      rw [List.take_left, List.take_length]
    have atEnd (error : CatalogError) :
        FaultAt (entries ++ [entry]) entries.length error ↔ Fault entries entry error := by
      simp [FaultAt]
    rw [ofSettings_concat]
    rcases ih with ⟨catalog, loaded, holds, sound⟩ | ⟨error, i, failed, inside, fault, first⟩
    · rw [loaded]
      have noneBefore := (sound_iff_no_fault entries).mp sound
      rcases add_outcome holds entry with ⟨error, failed, fault⟩ | ⟨next, added, grown, noFault⟩
      · refine Or.inr ⟨error, entries.length, failed, by simp, (atEnd error).mpr fault, ?_⟩
        intro j before other
        rw [upTo before]
        exact noneBefore j other
      · refine Or.inl ⟨next, added, grown, (sound_iff_no_fault _).mpr fun i error fault => ?_⟩
        obtain ⟨found, there, -⟩ := id fault
        have inside : i < (entries ++ [entry]).length := (List.getElem?_eq_some_iff.mp there).1
        rw [List.length_append, List.length_singleton] at inside
        by_cases before : i < entries.length
        · exact noneBefore i error ((upTo before error).mp fault)
        · obtain rfl : i = entries.length := by omega
          exact noFault error ((atEnd error).mp fault)
    · rw [failed]
      refine Or.inr ⟨error, i, rfl, ?_, (upTo inside error).mpr fault, ?_⟩
      · rw [List.length_append]
        omega
      · intro j before other
        rw [upTo (by omega)]
        exact first j before other

theorem ofSettings_eq_error_iff (entries : List Settings) (error : CatalogError) :
    ofSettings entries = .error error ↔ ∃ i, FirstFault entries i error := by
  rcases ofSettings_outcome entries with ⟨catalog, loaded, -, sound⟩ | ⟨other, i, failed, -, first⟩
  · rw [loaded]
    refine ⟨nofun, fun ⟨i, fault, _⟩ => ?_⟩
    exact absurd fault ((sound_iff_no_fault entries).mp sound i error)
  · rw [failed, Except.error.injEq]
    constructor
    · intro same
      exact ⟨i, same ▸ first⟩
    · intro found
      obtain ⟨j, second⟩ := found
      exact firstFault_unique first second

theorem ofSettings_eq_ok {entries : List Settings} {catalog : Catalog}
    (loaded : ofSettings entries = .ok catalog) : Holds catalog entries ∧ Sound entries := by
  rcases ofSettings_outcome entries with ⟨other, loaded', outcome⟩ | ⟨error, i, failed, -⟩
  · obtain rfl := Except.ok.inj (loaded.symm.trans loaded')
    exact outcome
  · cases loaded.symm.trans failed

theorem firstFault_congr {entries others : List Settings} {i : Nat} {error : CatalogError}
    (first : FirstFault entries i error) (same : others.take (i + 1) = entries.take (i + 1)) :
    FirstFault others i error := by
  refine ⟨(faultAt_congr same (by omega) error).mpr first.1, fun j before other => ?_⟩
  rw [faultAt_congr same (by omega)]
  exact first.2 j before other

theorem fault_report {earlier : List Settings} {entry : Settings} {error : CatalogError}
    (fault : Fault earlier entry error) :
    ((∃ reason, Template.parse entry.url = .error reason) ∧
      error.message = "Invalid resource '".toList ++ entry.name ++ "'".toList ∧
      error.cause? = some "hasOwnProperty is not a valid parameter name.".toList) ∨
    ((∃ template, Template.parse entry.url = .ok template) ∧ entry.name ∈ names earlier ∧
      error.message =
        "Invalid resource configuration: Duplicate resource name: ".toList ++ entry.name ∧
      error.cause? = some error.message) := by
  cases fault with
  | @url reason rejected =>
    obtain ⟨-, reserved⟩ := ((refusesReserved_parse entry.url).fails reason).mp rejected
    subst reserved
    exact Or.inl ⟨⟨_, rejected⟩, rfl, rfl⟩
  | name accepted taken => exact Or.inr ⟨⟨_, accepted⟩, taken, rfl, rfl⟩

/-- Settings load exactly if every URL is a template and no name comes twice. The catalog then holds
the resource of each entry under its name. Otherwise the first entry at fault is reported by its
name, whatever stands behind it. -/
theorem ofSettings_all_or_first_fault (entries : List Settings) :
    ((∃ catalog, ofSettings entries = .ok catalog) ↔ Sound entries) ∧
    (∀ catalog, ofSettings entries = .ok catalog → Holds catalog entries) ∧
    (∀ error, ofSettings entries = .error error ↔ ∃ i, FirstFault entries i error) ∧
    ∀ i error, FirstFault entries i error →
      (∀ others, others.take (i + 1) = entries.take (i + 1) →
        ofSettings others = .error error) ∧
      ∃ entry, entries[i]? = some entry ∧
        (((∃ reason, Template.parse entry.url = .error reason) ∧
          error.message = "Invalid resource '".toList ++ entry.name ++ "'".toList ∧
          error.cause? = some "hasOwnProperty is not a valid parameter name.".toList) ∨
        ((∃ template, Template.parse entry.url = .ok template) ∧
          entry.name ∈ names (entries.take i) ∧
          error.message =
            "Invalid resource configuration: Duplicate resource name: ".toList ++ entry.name ∧
          error.cause? = some error.message)) := by
  refine ⟨?_, fun catalog loaded => (ofSettings_eq_ok loaded).1, ofSettings_eq_error_iff entries,
    fun i error first => ⟨fun others same => ?_, ?_⟩⟩
  · constructor
    · intro found
      obtain ⟨catalog, loaded⟩ := found
      exact (ofSettings_eq_ok loaded).2
    · intro sound
      cases loaded : ofSettings entries with
      | ok catalog => exact ⟨catalog, rfl⟩
      | error error =>
        obtain ⟨i, fault, -⟩ := (ofSettings_eq_error_iff entries error).mp loaded
        exact absurd fault ((sound_iff_no_fault entries).mp sound i error)
  · exact (ofSettings_eq_error_iff others error).mpr ⟨i, firstFault_congr first same⟩
  · obtain ⟨entry, found, fault⟩ := first.1
    exact ⟨entry, found, fault_report fault⟩

/-- The second entry has a name that is taken and a URL that is no template: the URL is reported,
though a third entry repeats a name with a URL that is one. -/
theorem ofSettings_all_or_first_fault_url_first :
    ∃ error, Catalog.ofSettings
        [⟨['a'], "/a".toList, .empty, none, .empty⟩,
          ⟨['a'], "/:hasOwnProperty".toList, .empty, none, .empty⟩,
          ⟨['a'], "/c".toList, .empty, none, .empty⟩] = .error error ∧
      error.message = "Invalid resource 'a'".toList := by
  let entries : List Settings := [⟨['a'], "/a".toList, .empty, none, .empty⟩,
    ⟨['a'], "/:hasOwnProperty".toList, .empty, none, .empty⟩,
    ⟨['a'], "/c".toList, .empty, none, .empty⟩]
  have first : FirstFault entries 1
      (.invalidResource ['a'] (.invalidParameterName "hasOwnProperty".toList)) := by
    refine ⟨⟨_, rfl, .url (if_pos (by decide))⟩, fun j before other fault => ?_⟩
    obtain rfl : j = 0 := by omega
    obtain ⟨entry, found, fault⟩ := fault
    cases found
    cases fault with
    | url rejected => cases rejected.symm.trans (if_neg (by decide))
    | name accepted taken => cases taken
  obtain ⟨-, -, -, report⟩ := ofSettings_all_or_first_fault entries
  obtain ⟨fails, -⟩ := report 1 _ first
  exact ⟨_, fails entries rfl, rfl⟩

end RoutePlan.Catalog
