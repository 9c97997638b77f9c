import RoutePlan.Proofs.Route.Filling
import RoutePlan.Proofs.Template.Renaming

/-!
Routes under other names. Where no slot stands in the scheme and host, these stay as they are when
the slots get other names: an image holds neither the slash that ends the host nor one that could
complete a scheme. Behind them the tokens are the old ones under new names, and values and defaults
under the new names fill them alike.
-/
namespace RoutePlan

def Dict.renamed {α : Type _} (names : List Text) (image : Text → Text) (d : Dict α) : Dict α :=
  ofList (names.filterMap fun name => (d.get? name).map fun value => (image name, value))

def RouteDefaults.renamed {σ : Type} (names : List Text) (image : Text → Text)
    (defaults : RouteDefaults σ) : RouteDefaults σ where
  stripTrailingSlashes := defaults.stripTrailingSlashes
  params := defaults.params.renamed names image

def Token.renamed (image : Text → Text) : Token → Token
  | .char c => .char c
  | .slot s => .slot (s.renamed image)

def Template.SlotsOutside (template : Template) : Prop :=
  ∃ inside outside, template.tokens = inside ++ outside ∧
    LongestAuthority template.unescaped (Token.reading inside) ∧
    ∀ slot, Token.slot slot ∉ inside

section
variable {names : List Text} {image : Text → Text}

/-! ### Values and defaults -/

theorem Dict.get?_overlay_renamed {α : Type _} {name : Text}
    (injective : ∀ other ∈ names, image name = image other → name = other) (d base : Dict α) :
    (base.overlay (names.filterMap fun name =>
      (d.get? name).map fun value => (image name, value))).get? (image name) =
        if name ∈ names then (d.get? name).or (base.get? (image name))
        else base.get? (image name) := by
  induction names generalizing base with
  | nil => rfl
  | cons other rest ih =>
    have later := ih fun name member => injective name (List.mem_cons_of_mem _ member)
    have same : image name = image other ↔ name = other :=
      ⟨injective other List.mem_cons_self, congrArg image⟩
    cases found : d.get? other with
    | none =>
      rw [List.filterMap_cons_none (by rw [found]; rfl), later]
      by_cases isOther : name = other <;> simp [isOther, found]
    | some value =>
      have laid := later (base.insert (image other) value)
      simp only [get?_insert, same] at laid
      rw [List.filterMap_cons_some (by rw [found]; rfl)]
      refine laid.trans ?_
      by_cases isOther : name = other <;> simp [isOther, found]

theorem Dict.get?_renamed {α : Type _} (allowed : Renaming names image) {name : Text}
    (member : name ∈ names) (d : Dict α) :
    (d.renamed names image).get? (image name) = d.get? name := by
  rw [renamed, ofList, get?_overlay_renamed (allowed.injective name member), if_pos member]
  cases d.get? name <;> rfl

/-! ### Tokens -/

namespace Token
variable {tokens : List Token}

theorem head?_reading_renamed (tokens : List Token) :
    (reading (tokens.map (renamed image))).head? = (reading tokens).head? := by
  cases tokens with
  | nil => rfl
  | cons token rest => cases token <;> simp [renamed, text]

theorem prefix_reading_of_renamed (allowed : Renaming names image)
    (listed : ∀ slot, Token.slot slot ∈ tokens → slot.name ∈ names) {t : Text}
    (slashed : ∀ stretch ∈ t.tails, stretch.head? = some ':' → stretch[1]? = some '/')
    (front : t <+: reading (tokens.map (renamed image))) : t <+: reading tokens := by
  induction tokens generalizing t with
  | nil => exact front
  | cons token rest ih =>
    cases t with
    | nil => exact List.nil_prefix
    | cons c t =>
      rw [List.tails_cons, List.forall_mem_cons] at slashed
      rw [List.map_cons, reading_cons] at front
      rw [reading_cons]
      cases token with
      | char d =>
        obtain ⟨same, later⟩ := List.cons_prefix_cons.mp front
        have inRest := ih (fun slot member => listed slot (List.mem_cons_of_mem _ member))
          slashed.2 later
        exact List.cons_prefix_cons.mpr ⟨same, inRest⟩
      | slot s =>
        obtain ⟨same, later⟩ := List.cons_prefix_cons.mp front
        have slash := slashed.1 (congrArg some same)
        have named := listed s List.mem_cons_self
        obtain ⟨first, more, begins⟩ := List.exists_cons_of_ne_nil (allowed.nonempty _ named)
        have isWord := allowed.isWord _ named first (begins ▸ List.mem_cons_self)
        have second : first = '/' := by
          cases t with
          | nil => cases slash
          | cons d t =>
            change d :: t <+: image s.name ++ _ at later
            rw [begins] at later
            exact (List.cons_prefix_cons.mp later).1.symm.trans (Option.some.inj slash)
        rw [second] at isWord
        exact absurd isWord (by decide)

end Token

/-! ### The scheme and host -/

namespace Template

theorem tokens_renamed (template : Template) :
    (template.renamed image).tokens = template.tokens.map (Token.renamed image) := by
  rw [tokens, tokens, List.map_flatMap]
  apply List.flatMap_congr
  intro part _
  cases part with
  | literal text => simp [partTokens, Token.renamed, Function.comp_def]
  | slot index =>
    rw [partTokens, partTokens, renamed, List.getElem?_map]
    cases template.slots[index]? <;> rfl

theorem map_renamed_of_noSlots {tokens : List Token} (noSlots : ∀ slot, Token.slot slot ∉ tokens) :
    tokens.map (Token.renamed image) = tokens := by
  have fixed : tokens.map (Token.renamed image) = tokens.map id := by
    apply List.map_congr_left
    intro token member
    cases token with
    | char c => rfl
    | slot slot => exact absurd member (noSlots slot)
  rw [fixed, List.map_id]

theorem longestAuthority_renamed {inside outside : List Token} (allowed : Renaming names image)
    (listed : ∀ slot, Token.slot slot ∈ inside ++ outside → slot.name ∈ names)
    (noSlots : ∀ slot, Token.slot slot ∉ inside)
    (longest : LongestAuthority (Token.reading (inside ++ outside)) (Token.reading inside)) :
    LongestAuthority (Token.reading ((inside ++ outside).map (Token.renamed image)))
      (Token.reading inside) := by
  rcases longest with found | none
  · have form := found.1
    have stops : LongestAuthority (Token.reading (inside ++ outside)) _ := Or.inl found
    rw [Token.reading_append, longestAuthority_append_iff form] at stops
    rw [List.map_append, map_renamed_of_noSlots noSlots, Token.reading_append,
      longestAuthority_append_iff form]
    rwa [← List.head?_eq_none_iff, Token.head?_reading_renamed, List.head?_eq_none_iff]
  · refine Or.inr ⟨none.1, ?_⟩
    intro u form front
    obtain ⟨scheme, host, isScheme, noSlash, rfl⟩ := form
    have slashed : ∀ stretch ∈ scheme.tails,
        stretch.head? = some ':' → stretch[1]? = some '/' := by
      rcases isScheme with plain | secure
      · rw [plain]
        decide
      · rw [secure]
        decide
    -- A scheme of the renamed text would be one of the old text, and a host may be empty.
    have old := Token.prefix_reading_of_renamed allowed listed slashed
      ((List.prefix_append scheme host).trans front)
    exact none.2 scheme ⟨scheme, [], isScheme, by simp, by simp⟩ old

theorem split_renamed {source : Text} {template : Template} (parsed : parse source = .ok template)
    (outside : template.SlotsOutside) (allowed : Renaming (slotNames template.slots) image) :
    (template.renamed image).authority = template.authority ∧
      (template.renamed image).body = template.body.map (Token.renamed image) := by
  obtain ⟨inside, body, whole, longest, noSlots⟩ := outside
  obtain ⟨front, split, reads⟩ := tokens_split parsed
  obtain ⟨newFront, newSplit, newReads⟩ := tokens_split (parse_renameSource image parsed allowed)
  have atAuthority := longestAuthority_unique longest template.longestAuthority_authority
  obtain ⟨-, sameBody⟩ := Token.same_reading_same_front (whole.symm.trans split)
    (atAuthority.trans reads.symm)
  have listed : ∀ slot, Token.slot slot ∈ inside ++ body →
      slot.name ∈ slotNames template.slots := by
    rw [← whole]
    exact fun slot member => List.mem_map_of_mem (slot_of_mem_tokens member)
  rw [← reading_tokens, whole] at longest
  have stays := longestAuthority_renamed allowed listed noSlots longest
  rw [← whole, ← tokens_renamed, reading_tokens] at stays
  have newAuthority := longestAuthority_unique (longestAuthority_authority _) stays
  rw [tokens_renamed, whole, List.map_append, map_renamed_of_noSlots noSlots] at newSplit
  obtain ⟨-, newBody⟩ := Token.same_reading_same_front newSplit
    (newAuthority.symm.trans newReads.symm)
  exact ⟨newAuthority.trans atAuthority, by rw [← newBody, sameBody]⟩

end Template

/-! ### Binding -/

namespace Route
variable {σ : Type} (route : Route σ) {other : Route σ}

theorem textFor_renamed (allowed : Renaming names image)
    (defaults : other.defaults = route.defaults.renamed names image) {name : Text}
    (member : name ∈ names) (params : Dict Json) :
    other.textFor (params.renamed names image) (image name) = route.textFor params name := by
  unfold textFor RouteDefaults.get?
  rw [defaults, RouteDefaults.renamed, Dict.get?_renamed allowed member,
    Dict.get?_renamed allowed member]

theorem fillAll_renamed (allowed : Renaming names image)
    (defaults : other.defaults = route.defaults.renamed names image) {tokens : List Token}
    (listed : ∀ slot, Token.slot slot ∈ tokens → slot.name ∈ names) (params : Dict Json) (s : σ) :
    other.fillAll (params.renamed names image) (tokens.map (Token.renamed image)) s =
      route.fillAll params tokens s := by
  induction tokens generalizing s with
  | nil => rfl
  | cons token rest ih =>
    have later := ih fun slot member => listed slot (List.mem_cons_of_mem _ member)
    cases token with
    | char c => rw [List.map_cons, Token.renamed, fillAll_char, fillAll_char, later]
    | slot slot =>
      have member := listed slot List.mem_cons_self
      have sameText := textFor_renamed route allowed defaults member params
      rw [List.map_cons, Token.renamed, fillAll_slot, fillAll_slot, Slot.renamed, sameText]
      simp only [later]
      rfl

end Route
end

/-- Slot names behind the scheme and host do not show in the URL. Under other names a source gives
the same parts, the slots in the same order and under the same encodings, and the same URL, if the
values and the defaults for the slots come under the new names, too. -/
theorem Route.bind_renamed {source : Text} {template : Template}
    (parsed : Template.parse source = .ok template) (outside : template.SlotsOutside)
    {image : Text → Text} (allowed : Renaming (Template.slotNames template.slots) image) :
    Template.parse (Template.renameSource image source) = .ok (template.renamed image) ∧
      ∀ (σ : Type) (defaults : RouteDefaults σ) (params : Dict Json), ∃ route renamed : Route σ,
        Route.new source defaults = .ok route ∧
          Route.new (Template.renameSource image source)
            (defaults.renamed (Template.slotNames template.slots) image) = .ok renamed ∧
          renamed.bind (params.renamed (Template.slotNames template.slots) image) =
            route.bind params := by
  have newParsed := Template.parse_renameSource image parsed allowed
  refine ⟨newParsed, ?_⟩
  intro σ defaults params
  refine ⟨⟨template, defaults⟩, ⟨template.renamed image, _⟩, new_eq_ok_iff.mpr ⟨parsed, rfl⟩,
    new_eq_ok_iff.mpr ⟨newParsed, rfl⟩, ?_⟩
  funext s
  have listed : ∀ slot, Token.slot slot ∈ template.body →
      slot.name ∈ Template.slotNames template.slots :=
    fun slot member => List.mem_map_of_mem (Template.slot_of_mem_body parsed member)
  obtain ⟨sameAuthority, newBody⟩ := Template.split_renamed parsed outside allowed
  rw [bind, bind, expand_eq, expand_eq, sameAuthority, newBody,
    fillAll_renamed ⟨template, defaults⟩ allowed rfl listed]

theorem Route.bind_renamed_longer_and_shorter :
    ∃ route renamed : Route Unit,
      Route.new "http://h/:a/:bc?x=:a".toList
        { params := [("bc".toList, .literal (.ofText "z"))] } = .ok route ∧
      Route.new "http://h/:file_name/:q?x=:file_name".toList
        { params := [(['q'], .literal (.ofText "z"))] } = .ok renamed ∧
      renamed.bind [("file_name".toList, .ofText "x y")] =
        route.bind [(['a'], .ofText "x y"), (['q'], .ofText "w")] ∧
      (route.bind [(['a'], .ofText "x y"), (['q'], .ofText "w")] ()).1 =
        "http://h/x%20y/z?x=x%20y".toList := by
  let image : Text → Text := fun name => if name = ['a'] then "file_name".toList else ['q']
  let defaults : RouteDefaults Unit := { params := [("bc".toList, .literal (.ofText "z"))] }
  have allowed : Renaming [['a'], "bc".toList] image := by
    constructor
    · decide
    · decide
    · intro name _
      exact Text.forall_mem_of_all (by simp only [image]; split <;> decide)
    · decide
    · decide
  obtain ⟨template, parsed, named, split, authority, bound⟩ : ∃ template,
      Template.parse "http://h/:a/:bc?x=:a".toList = .ok template ∧
      Template.slotNames template.slots = [['a'], "bc".toList] ∧
      template.tokens = "http://h".toList.map .char ++ template.body ∧
      template.authority = "http://h".toList ∧
      (Route.bind ⟨template, defaults⟩ [(['a'], .ofText "x y"), (['q'], .ofText "w")] ()).1 =
        "http://h/x%20y/z?x=x%20y".toList :=
    ⟨_, if_neg (by decide), by decide +kernel, by decide +kernel, by decide +kernel,
      by decide +kernel⟩
  have outside : template.SlotsOutside := by
    refine ⟨_, _, split, ?_, by simp⟩
    rw [Template.reading_chars, ← authority]
    exact template.longestAuthority_authority
  obtain ⟨-, binds⟩ := Route.bind_renamed parsed outside (named ▸ allowed)
  obtain ⟨route, renamed, made, newMade, same⟩ :=
    binds Unit defaults [(['a'], .ofText "x y"), (['q'], .ofText "w")]
  rw [named] at newMade same
  have ofTemplate : Route.new _ defaults = .ok ⟨template, defaults⟩ :=
    new_eq_ok_iff.mpr ⟨parsed, rfl⟩
  obtain rfl := Except.ok.inj (made.symm.trans ofTemplate)
  have newSource : Template.renameSource image "http://h/:a/:bc?x=:a".toList =
      "http://h/:file_name/:q?x=:file_name".toList := by decide +kernel
  rw [newSource] at newMade
  exact ⟨_, renamed, made, newMade, same, bound⟩

end RoutePlan
