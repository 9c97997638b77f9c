import Mathlib.Data.List.Chain
import RoutePlan.Proofs.Route.Substitution
import RoutePlan.Proofs.Route.TrailingSlashes

/-!
Two slashes in a row. A template without them is bound to a URL without them if each value either
has no text or is a text that brings none along: whatever is missing takes the slash before it along
when a slash comes next, and what the passes take out stands between two characters of which one is
no slash.
-/
namespace RoutePlan

def Apart {α : Type} (a : α) (items : List α) : Prop := ¬ [a, a] <:+: items

structure FitsBetweenSlashes (text : Text) : Prop where
  nonempty : text ≠ []
  first : text.head? ≠ some '/'
  last : text.getLast? ≠ some '/'
  apart : Apart '/' text

section
variable {α : Type} {a : α} {items later : List α}

theorem apart_iff_isChain : Apart a items ↔ items.IsChain fun x y => ¬ (x = a ∧ y = a) := by
  rw [List.isChain_iff_forall_rel_of_append_cons_cons]
  constructor
  · intro apart x y before behind whole same
    obtain ⟨rfl, rfl⟩ := same
    exact apart ⟨before, behind, by rw [whole]; simp⟩
  · intro differ together
    obtain ⟨before, behind, whole⟩ := together
    have split : items = before ++ a :: a :: behind := by rw [← whole]; simp
    exact differ split ⟨rfl, rfl⟩

theorem apart_append_iff :
    Apart a (items ++ later) ↔
      Apart a items ∧ Apart a later ∧ ¬ (items.getLast? = some a ∧ later.head? = some a) := by
  rw [apart_iff_isChain, apart_iff_isChain, apart_iff_isChain, List.isChain_append]
  simp only [Option.mem_def]
  constructor
  · intro parts
    obtain ⟨front, behind, between⟩ := parts
    exact ⟨front, behind, fun meet => between a meet.1 a meet.2 ⟨rfl, rfl⟩⟩
  · intro parts
    obtain ⟨front, behind, between⟩ := parts
    refine ⟨front, behind, ?_⟩
    intro x last y first same
    obtain ⟨rfl, rfl⟩ := same
    exact between ⟨last, first⟩

theorem apart_nil (a : α) : Apart a [] := by
  rw [apart_iff_isChain]
  exact List.isChain_nil

theorem apart_singleton (a item : α) : Apart a [item] := by
  rw [apart_iff_isChain]
  exact List.isChain_singleton item

theorem apart_cons_iff {item : α} :
    Apart a (item :: items) ↔ Apart a items ∧ ¬ (item = a ∧ items.head? = some a) := by
  rw [← List.singleton_append, apart_append_iff]
  simp [apart_singleton]

end

/-! ### Writing -/

/-- No slash is written behind another: the path ends with a slash only where none comes next, or
where something missing comes next, which then takes it along. -/
theorem apart_write {path : Text} {fillings : List Filling} (written : Apart '/' path)
    (unwritten : Apart (.char '/') fillings)
    (values : ∀ text, .value text ∈ fillings → FitsBetweenSlashes text)
    (between : ¬ (path.getLast? = some '/' ∧ fillings.head? = some (.char '/'))) :
    Apart '/' (write path fillings) := by
  induction fillings generalizing path with
  | nil => exact written
  | cons filling rest ih =>
    obtain ⟨unwrittenRest, next⟩ := apart_cons_iff.mp unwritten
    have valuesRest : ∀ text, .value text ∈ rest → FitsBetweenSlashes text :=
      fun text member => values text (List.mem_cons_of_mem _ member)
    cases filling with
    | char c =>
      apply ih _ unwrittenRest valuesRest
      · rw [List.getLast?_concat]
        simpa using next
      · rw [apart_append_iff]
        exact ⟨written, apart_singleton '/' c, by simpa using between⟩
    | value text =>
      have fits := values text List.mem_cons_self
      apply ih _ unwrittenRest valuesRest
      · rw [List.getLast?_append_of_ne_nil _ fits.nonempty]
        exact fun meet => fits.last meet.1
      · rw [apart_append_iff]
        exact ⟨written, fits.apart, fun meet => fits.first meet.2⟩
    | missing =>
      rw [write]
      split
      · rename_i taken
        obtain ⟨front, rfl⟩ := List.getLast?_eq_some_iff.mp taken.2
        obtain ⟨writtenFront, -, meet⟩ := apart_append_iff.mp written
        rw [List.dropLast_concat]
        apply ih writtenFront unwrittenRest valuesRest
        exact fun ends => meet ⟨ends.1, rfl⟩
      · rename_i stays
        exact ih written unwrittenRest valuesRest fun meet => stays meet.symm

/-! ### Canonicalizing -/

theorem apart_settled {path : Text} (apart : Apart '/' path) (strip : Bool) :
    Apart '/' (settled strip path) := by
  unfold settled
  split
  · obtain ⟨kept, n, rfl, -, stripped⟩ :=
      slashesStripped_iff.mpr (Eq.refl (stripTrailingSlashes path))
    rw [stripped]
    split
    · exact apart_singleton '/' '/'
    · exact (apart_append_iff.mp apart).1
  · exact apart

theorem apart_collapseExtension {path : Text} (apart : Apart '/' path) :
    Apart '/' (collapseExtension path) := by
  rcases collapseExtension_cases path with ⟨before, after, rfl, collapsed⟩ | same
  · obtain ⟨front, behind, -⟩ := apart_append_iff.mp apart
    obtain ⟨extension, -⟩ := apart_cons_iff.mp behind
    rw [collapsed, apart_append_iff]
    exact ⟨front, extension, by simp⟩
  · rwa [same]

theorem apart_restoreDots {path : Text} (apart : Apart '/' path) :
    Apart '/' (restoreDots path) := by
  induction path using restoreDots_induction with
  | nil => exact apart
  | escaped rest ih =>
    simp only [apart_cons_iff] at apart
    rw [restoreDots_escaped]
    simp only [apart_cons_iff]
    exact ⟨⟨ih apart.1.1.1, by simp⟩, by simp⟩
  | cons c rest stays ih =>
    obtain ⟨apartRest, next⟩ := apart_cons_iff.mp apart
    rw [restoreDots_cons stays, apart_cons_iff, head?_restoreDots]
    exact ⟨ih apartRest, next⟩

theorem apart_canonicalize {path : Text} (apart : Apart '/' path) (strip : Bool) :
    Apart '/' (canonicalize strip path) := by
  rw [canonicalize_eq]
  exact apart_restoreDots (apart_collapseExtension (apart_settled apart strip))

/-! ### Filling -/

theorem apart_of_reading {tokens : List Token} (apart : Apart '/' (Token.reading tokens)) :
    Apart (.char '/') tokens := by
  intro together
  obtain ⟨before, behind, rfl⟩ := together
  refine apart ⟨Token.reading before, Token.reading behind, ?_⟩
  rw [Token.reading_append, Token.reading_append]
  rfl

theorem Slot.encode_ne_nil (slot : Slot) {text : Text} (nonempty : text ≠ []) :
    slot.encoding.encode text ≠ [] := by
  intro empty
  have ofEmpty : slot.encoding.encode [] = [] := by cases slot.encoding <;> rfl
  have same : slot.filling (some text) = slot.filling (some []) :=
    congrArg Filling.value (empty.trans ofEmpty.symm)
  exact nonempty (Option.some.inj (slot.filling_injective same))

namespace Route
variable {σ : Type}

theorem fill_eq_slash_iff (route : Route σ) (params : Dict Json) (token : Token) (s : σ) :
    (route.fill params token s).1 = .char '/' ↔ token = .char '/' := by
  have alone := route.head?_fillAll params [token] s
  simpa [fillAll_cons] using alone

theorem apart_fillAll (route : Route σ) (params : Dict Json) {tokens : List Token}
    (apart : Apart (.char '/') tokens) (s : σ) :
    Apart (.char '/') (route.fillAll params tokens s).1 := by
  induction tokens generalizing s with
  | nil => exact apart_nil _
  | cons token rest ih =>
    obtain ⟨apartRest, next⟩ := apart_cons_iff.mp apart
    rw [fillAll_cons]
    simp only [apart_cons_iff, fill_eq_slash_iff, head?_fillAll]
    exact ⟨ih apartRest _, next⟩

variable {template : Template}

theorem exists_text_of_value {route : Route σ} {params : Dict Json} {s : σ} {encoded : Text}
    (member : .value encoded ∈ route.fillings template params s) :
    ∃ i slot text, template.body[i]? = some (.slot slot) ∧
      (route.textFor params slot.name (route.stateAt template params s i)).1 = some text ∧
      slot.encoding.encode text = encoded := by
  obtain ⟨i, found⟩ := List.mem_iff_getElem?.mp member
  cases occurs : template.body[i]? with
  | none => simp [fillings, getElem?_fillAll, occurs] at found
  | some token =>
    cases token with
    | char c =>
      simp only [fillings, getElem?_fillAll, occurs, Option.map_some, Option.some.injEq] at found
      cases found
    | slot slot =>
      rw [filling_at route params s occurs, Option.some.injEq] at found
      cases text : (route.textFor params slot.name (route.stateAt template params s i)).1 with
      | none =>
        rw [text] at found
        cases found
      | some given =>
        rw [text] at found
        exact ⟨i, slot, given, occurs, text, Filling.value.inj found⟩

theorem substituted_eq (route : Route σ) (params : Dict Json) (s : σ) :
    route.substituted template params s = write [] (route.fillings template params s) :=
  congrArg Prod.fst (route.writes_segments params template [] s)

/-- Whatever is missing, no two slashes come to stand in a row: not if the template has none in a
row behind the scheme and host, and each occurrence of a slot there has either no text or one whose
encoding brings none along and neither begins nor ends with one. -/
theorem bind_slashes_apart {source : Text} (parsed : Template.parse source = .ok template)
    {rest : Text} (split : template.unescaped = template.authority ++ rest)
    (single : ¬ ['/', '/'] <:+: rest) (route : Route σ) (params : Dict Json) (s : σ)
    (values : ∀ i slot text, template.body[i]? = some (.slot slot) →
      (route.textFor params slot.name (route.stateAt template params s i)).1 = some text →
      text ≠ [] ∧ (slot.encoding.encode text).head? ≠ some '/' ∧
        (slot.encoding.encode text).getLast? ≠ some '/' ∧
        ¬ ['/', '/'] <:+: slot.encoding.encode text) :
    ∃ tail, route.BindsTail source template params s tail ∧ ¬ ['/', '/'] <:+: tail := by
  refine ⟨_, bindsTail parsed route params s, ?_⟩
  apply apart_canonicalize
  rw [substituted_eq]
  rw [Template.unescaped_split parsed, List.append_right_inj] at split
  subst split
  apply apart_write (apart_nil _)
  · exact apart_fillAll route params (apart_of_reading single) s
  · intro encoded member
    obtain ⟨i, slot, text, occurs, found, rfl⟩ := exists_text_of_value member
    obtain ⟨nonempty, first, last, apart⟩ := values i slot text occurs found
    exact ⟨slot.encode_ne_nil nonempty, first, last, apart⟩
  · simp

theorem bind_slashes_apart_of_missing :
    ∃ route : Route Unit, Route.new "http://h/:a:b/:c/:d.json/:e".toList {} = .ok route ∧
      ∃ tail, (route.bind [(['c'], .ofText "p/q"), (['e'], .null)] ()).1 =
        "http://h".toList ++ tail ∧ ¬ ['/', '/'] <:+: tail := by
  let params : Dict Json := [(['c'], .ofText "p/q"), (['e'], .null)]
  obtain ⟨template, parsed, authority, split, flag⟩ : ∃ template,
      Template.parse "http://h/:a:b/:c/:d.json/:e".toList = .ok template ∧
      template.authority = "http://h".toList ∧
      template.unescaped = template.authority ++ "/:a:b/:c/:d.json/:e".toList ∧
      ∀ slot ∈ template.slots, slot.isQueryValue = false :=
    ⟨_, if_neg (by decide), by decide +kernel, by decide +kernel, by decide +kernel⟩
  let route : Route Unit := ⟨template, {}⟩
  have onlyText : ∀ (name text : Text) (s : Unit), (route.textFor params name s).1 = some text →
      text = "p/q".toList := by
    intro name text s found
    have fixed : RouteDefaults.fixed true [] = route.defaults := rfl
    rw [textFor_fixed fixed, givenText, Dict.get?_cons, Dict.get?_cons] at found
    split at found
    · exact (Option.some.inj found).symm
    · split at found <;> cases found
  obtain ⟨tail, binds, apart⟩ := bind_slashes_apart parsed split (by decide) route params () (by
    intro i slot text occurs found
    have listed := Template.slot_of_mem_body parsed (List.mem_of_getElem? occurs)
    rw [onlyText slot.name text _ found, Slot.encoding, flag slot listed]
    decide)
  refine ⟨route, new_eq_ok_iff.mpr ⟨parsed, rfl⟩, tail, ?_, apart⟩
  rw [← authority]
  exact binds.own rfl

end Route
end RoutePlan
