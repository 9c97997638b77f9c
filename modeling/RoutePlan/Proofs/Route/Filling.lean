import RoutePlan.Proofs.Dict
import RoutePlan.Proofs.Template.Authority

/-!
Binding without offsets. The tokens behind the scheme and host are filled one after the other, and
what they are filled with is written from left to right. Filling is the only step that runs computed
defaults; writing looks at texts alone.
-/
namespace RoutePlan

inductive Filling where
  | char (c : Char)
  | value (text : Text)
  | missing
  deriving DecidableEq

def Slot.filling (slot : Slot) : Option Text → Filling
  | some text => .value (slot.encoding.encode text)
  | none => .missing

def Token.fillWith (text? : Text → Option Text) : Token → Filling
  | .char c => .char c
  | .slot s => s.filling (text? s.name)

/-- Writes behind `path`. What is missing takes the slash before it along where a slash follows. -/
def write (path : Text) : List Filling → Text
  | [] => path
  | .char c :: rest => write (path ++ [c]) rest
  | .value text :: rest => write (path ++ text) rest
  | .missing :: rest =>
    write (if rest.head? = some (.char '/') ∧ path.getLast? = some '/' then path.dropLast else path)
      rest

/-- The URL of a template whose tokens are read one after the other and whose slots have the texts
that `text?` gives. -/
def Template.BindsTo (template : Template) (strip : Bool) (text? : Text → Option Text)
    (url : Text) : Prop :=
  ∃ inside outside, template.tokens = inside ++ outside ∧
    LongestAuthority template.unescaped (Token.reading inside) ∧
    url = Token.reading inside ++
      canonicalize strip (write [] (outside.map (Token.fillWith text?)))

def RouteDefaults.fixed {σ : Type} (strip : Bool) (values : Dict Json) : RouteDefaults σ where
  stripTrailingSlashes := strip
  params := values.map fun (name, value) => (name, .literal value)

/-- The text for a slot: that of the caller's value where there is one, even null, and that of the
default elsewhere. -/
def givenText (params values : Dict Json) (name : Text) : Option Text :=
  ((params.get? name).or (values.get? name)).bind Json.paramText?

theorem write_chars (path text : Text) (rest : List Filling) :
    write path (text.map .char ++ rest) = write (path ++ text) rest := by
  induction text generalizing path with
  | nil => simp
  | cons c text ih =>
    rw [List.map_cons, List.cons_append, write, ih, List.append_assoc, List.singleton_append]

theorem Token.behind_chars (n : Nat) (text : Text) (rest : List Token) :
    behind n (text.map .char ++ rest) =
      (text.drop n).map .char ++ behind (n - text.length) rest := by
  induction text generalizing n with
  | nil => simp
  | cons c text ih =>
    cases n with
    | zero => simp
    | succ n =>
      rw [List.map_cons, List.cons_append, behind_cons (Nat.succ_pos n), Token.text,
        List.length_singleton, Nat.succ_sub_one, ih, List.drop_succ_cons, List.length_cons,
        Nat.add_sub_add_right]

namespace Route
variable {σ : Type}

def fill (route : Route σ) (params : Dict Json) : Token → StateM σ Filling
  | .char c => pure (.char c)
  | .slot s => s.filling <$> route.textFor params s.name

def fillAll (route : Route σ) (params : Dict Json) (tokens : List Token) :
    StateM σ (List Filling) := tokens.mapM (route.fill params)

theorem run_bind {α β : Type} (first : StateM σ α) (next : α → StateM σ β) (s : σ) :
    (first >>= next) s = next (first s).1 (first s).2 := rfl

section
variable (route : Route σ) (params : Dict Json)

@[simp] theorem fillAll_nil (s : σ) : route.fillAll params [] s = ([], s) := rfl

theorem fillAll_cons (token : Token) (rest : List Token) (s : σ) :
    route.fillAll params (token :: rest) s =
      let first := route.fill params token s
      let later := route.fillAll params rest first.2
      (first.1 :: later.1, later.2) := by
  rw [fillAll, List.mapM_cons]
  rfl

@[simp] theorem fillAll_char (c : Char) (rest : List Token) (s : σ) :
    route.fillAll params (.char c :: rest) s =
      (.char c :: (route.fillAll params rest s).1, (route.fillAll params rest s).2) :=
  fillAll_cons route params (.char c) rest s

@[simp] theorem fillAll_slot (slot : Slot) (rest : List Token) (s : σ) :
    route.fillAll params (.slot slot :: rest) s =
      let text := route.textFor params slot.name s
      (slot.filling text.1 :: (route.fillAll params rest text.2).1,
        (route.fillAll params rest text.2).2) :=
  fillAll_cons route params (.slot slot) rest s

theorem fillAll_append (tokens later : List Token) (s : σ) :
    route.fillAll params (tokens ++ later) s =
      let first := route.fillAll params tokens s
      (first.1 ++ (route.fillAll params later first.2).1,
        (route.fillAll params later first.2).2) := by
  unfold fillAll
  rw [List.mapM_append]
  rfl

theorem fillAll_chars (text : Text) (rest : List Token) (s : σ) :
    route.fillAll params (text.map Token.char ++ rest) s =
      (text.map Filling.char ++ (route.fillAll params rest s).1,
        (route.fillAll params rest s).2) := by
  induction text with
  | nil => rfl
  | cons c text ih => rw [List.map_cons, List.cons_append, fillAll_char, ih]; rfl

theorem head?_fillAll (tokens : List Token) (s : σ) :
    (route.fillAll params tokens s).1.head? = some (.char '/') ↔
      tokens.head? = some (.char '/') := by
  cases tokens with
  | nil => simp
  | cons token rest =>
    cases token with
    | char c => simp
    | slot slot =>
      rw [fillAll_slot]
      cases text : (route.textFor params slot.name s).1 <;> simp [Slot.filling, text]

def Writes (segments : List Template.Segment) (tokens : List Token) : Prop :=
  ∀ path s, segments.foldlM (route.extend params) path s =
    (write path (route.fillAll params tokens s).1, (route.fillAll params tokens s).2)

variable {route params} {segments : List Template.Segment} {tokens : List Token}

theorem writes_text (text : Text) (later : route.Writes params segments tokens) :
    route.Writes params (.text text :: segments) (text.map .char ++ tokens) := by
  intro path s
  have extended : route.extend params path (.text text) s = (path ++ text, s) := rfl
  rw [List.foldlM_cons, run_bind, extended, later, fillAll_chars, write_chars]

theorem writes_slot (slot : Slot) {beforeSlash : Bool}
    (lookahead : beforeSlash = true ↔ tokens.head? = some (.char '/'))
    (later : route.Writes params segments tokens) :
    route.Writes params (.slot slot beforeSlash :: segments) (.slot slot :: tokens) := by
  intro path s
  rw [List.foldlM_cons, run_bind, later, fillAll_slot]
  simp only [extend, run_bind]
  cases (route.textFor params slot.name s).1 with
  | some text => rfl
  | none =>
    rw [← head?_fillAll route params tokens (route.textFor params slot.name s).2] at lookahead
    simp only [Slot.filling, write, ← lookahead, Bool.and_eq_true, beq_iff_eq]
    rfl

/-- Walking the parts with an offset writes the tokens from `limit` on. The walk agrees with the
tokens as long as the offset stands where they begin. -/
theorem writes_segmentsFrom (raw : Text) (limit : Nat) (slots : List Slot) (parts : List Part)
    (offset : Nat)
    (ahead : raw.drop offset = Token.reading (parts.flatMap (Template.partTokens slots))) :
    route.Writes params (Template.segmentsFrom raw limit slots offset parts)
      (Token.behind (limit - offset) (parts.flatMap (Template.partTokens slots))) := by
  induction parts generalizing offset with
  | nil => exact fun path s => rfl
  | cons part rest ih =>
    rw [List.flatMap_cons, Token.reading_append, Template.reading_partTokens] at ahead
    have past : raw.drop (offset + (Template.partText slots part).length) =
        Token.reading (rest.flatMap (Template.partTokens slots)) := by
      rw [← List.drop_drop, ahead, List.drop_left]
    have later := ih _ past
    rw [List.flatMap_cons]
    cases part with
    | literal text =>
      rw [Template.partTokens, Token.behind_chars, Nat.sub_sub, Template.segmentsFrom]
      split
      · exact writes_text _ later
      · rename_i before
        rw [List.drop_eq_nil_of_le (by omega), List.map_nil, List.nil_append]
        exact later
    | slot index =>
      rw [Template.partTokens, Template.segmentsFrom]
      cases found : slots[index]? with
      | none =>
        simp only [Template.partText, found, List.length_nil, Nat.add_zero] at later
        exact later
      | some slot =>
        simp only [Template.partText, found, List.length_cons, ← Nat.add_assoc] at past later
        dsimp only
        split
        · rename_i behindLimit
          -- What the raw text has behind the slot is a slash exactly if the next token is one.
          have lookahead : ((raw.drop (offset + slot.name.length + 1)).head? == some '/') = true ↔
              (rest.flatMap (Template.partTokens slots)).head? = some (.char '/') := by
            rw [beq_iff_eq, past, Token.head?_reading_slash]
          rw [Nat.sub_eq_zero_of_le (by omega), Token.behind_zero] at later
          rw [Nat.sub_eq_zero_of_le behindLimit, Token.behind_zero, List.singleton_append]
          exact writes_slot slot lookahead later
        · rename_i inside
          rw [List.singleton_append, Token.behind_cons (by omega), Token.text, List.length_cons,
            Nat.sub_sub, ← Nat.add_assoc]
          exact later

variable (route params)

theorem writes_segments (template : Template) :
    route.Writes params template.segments template.body :=
  writes_segmentsFrom template.unescaped _ template.slots template.parts 0
    template.reading_tokens.symm

theorem expand_eq (template : Template) (s : σ) :
    route.expand template params s =
      let filled := route.fillAll params template.body s
      (template.authority ++
        canonicalize route.defaults.stripTrailingSlashes (write [] filled.1), filled.2) := by
  rw [expand, run_bind, writes_segments route params template]
  rfl
end

theorem bindUrl_of_parse {source : Text} {template : Template}
    (parsed : Template.parse source = .ok template) (route : Route σ) (params : Dict Json)
    (s : σ) :
    route.bindUrl source params s =
      (.ok (route.expand template params s).1, (route.expand template params s).2) := by
  rw [bindUrl, parsed]
  rfl

/-! ### Parameters that agree -/

theorem textFor_congr (route : Route σ) {params others : Dict Json} {name : Text}
    (same : params.get? name = others.get? name) :
    route.textFor params name = route.textFor others name := by
  unfold textFor
  rw [same]

theorem fillAll_congr (route : Route σ) {params others : Dict Json} (tokens : List Token)
    (same : ∀ slot, Token.slot slot ∈ tokens →
      params.get? slot.name = others.get? slot.name) :
    route.fillAll params tokens = route.fillAll others tokens := by
  funext s
  induction tokens generalizing s with
  | nil => rfl
  | cons token rest ih =>
    have later := ih fun slot member => same slot (List.mem_cons_of_mem _ member)
    cases token with
    | char c => simp only [fillAll_char, later]
    | slot slot => simp only [fillAll_slot, later, route.textFor_congr (same slot (by simp))]

theorem expand_congr (route : Route σ) (template : Template) {params others : Dict Json}
    (same : ∀ slot, Token.slot slot ∈ template.body →
      params.get? slot.name = others.get? slot.name) :
    route.expand template params = route.expand template others := by
  funext s
  rw [expand_eq, expand_eq, route.fillAll_congr template.body same]

/-! ### Routes with fixed defaults -/

theorem new_eq_ok_iff {source : Text} {defaults : RouteDefaults σ} {route : Route σ} :
    Route.new source defaults = .ok route ↔
      Template.parse source = .ok route.template ∧ defaults = route.defaults := by
  obtain ⟨template, routeDefaults⟩ := route
  unfold Route.new
  cases Template.parse source with
  | error error => simp [Bind.bind, Except.bind]
  | ok parsed => simp [Bind.bind, Except.bind, pure, Except.pure]

theorem textFor_fixed {route : Route σ} {strip : Bool} {values : Dict Json}
    (defaults : RouteDefaults.fixed strip values = route.defaults) (params : Dict Json)
    (name : Text) (s : σ) : route.textFor params name s = (givenText params values name, s) := by
  unfold textFor givenText
  cases given : params.get? name with
  | some value => rfl
  | none =>
    dsimp only
    rw [run_bind, RouteDefaults.get?, ← defaults, RouteDefaults.fixed, Dict.get?_map]
    cases values.get? name <;> rfl

theorem fillAll_fixed {route : Route σ} {strip : Bool} {values : Dict Json}
    (defaults : RouteDefaults.fixed strip values = route.defaults) (params : Dict Json)
    (tokens : List Token) (s : σ) :
    route.fillAll params tokens s = (tokens.map (Token.fillWith (givenText params values)), s) := by
  induction tokens with
  | nil => rfl
  | cons token rest ih =>
    cases token with
    | char c => rw [fillAll_char, ih]; rfl
    | slot slot => rw [fillAll_slot, textFor_fixed defaults]; simp only [ih]; rfl

theorem bindsTo_unique {template : Template} {strip : Bool} {text? : Text → Option Text}
    {url other : Text} (first : template.BindsTo strip text? url)
    (second : template.BindsTo strip text? other) : url = other := by
  obtain ⟨inside, outside, whole, longest, rfl⟩ := first
  obtain ⟨inside', outside', whole', longest', rfl⟩ := second
  obtain ⟨rfl, rfl⟩ := Token.same_reading_same_front (whole.symm.trans whole')
    (longestAuthority_unique longest longest')
  rfl

theorem expand_bindsTo {route : Route σ} {strip : Bool} {values : Dict Json}
    (defaults : RouteDefaults.fixed strip values = route.defaults) {source : Text}
    {template : Template} (parsed : Template.parse source = .ok template) (params : Dict Json)
    (s : σ) :
    ∃ url, route.expand template params s = (url, s) ∧
      ∀ other, template.BindsTo strip (givenText params values) other ↔ other = url := by
  have expanded := expand_eq route params template s
  rw [fillAll_fixed defaults, ← defaults] at expanded
  obtain ⟨front, split, reads⟩ := Template.tokens_split parsed
  refine ⟨_, expanded, fun other => ?_⟩
  have binds : template.BindsTo strip (givenText params values) _ :=
    ⟨front, template.body, split, reads ▸ template.longestAuthority_authority, rfl⟩
  rw [reads] at binds
  constructor
  · intro bindsOther
    exact bindsTo_unique bindsOther binds
  · rintro rfl
    exact binds

/-- A route with fixed defaults binds its template, and any other that parses, to the one URL that
reading the tokens gives, and leaves the state alone. -/
theorem bind_bindsTo {strip : Bool} {values : Dict Json} {source : Text} {route : Route σ}
    (made : Route.new source (.fixed strip values) = .ok route) (params : Dict Json) (s : σ) :
    (∃ url, route.bind params s = (url, s) ∧
      ∀ other, route.template.BindsTo strip (givenText params values) other ↔ other = url) ∧
    (∀ overriding error, Template.parse overriding = .error error →
      route.bindUrl overriding params s = (.error error, s)) ∧
    ∀ overriding template, Template.parse overriding = .ok template →
      ∃ url, route.bindUrl overriding params s = (.ok url, s) ∧
        ∀ other, template.BindsTo strip (givenText params values) other ↔ other = url := by
  obtain ⟨parsed, defaults⟩ := new_eq_ok_iff.mp made
  refine ⟨expand_bindsTo defaults parsed params s, ?_, ?_⟩
  · intro overriding error rejected
    rw [bindUrl, rejected]
    rfl
  · intro overriding template accepted
    obtain ⟨url, expanded, only⟩ := expand_bindsTo defaults accepted params s
    refine ⟨url, ?_, only⟩
    rw [bindUrl, accepted]
    simp only [run_bind, expanded]
    rfl

theorem bind_bindsTo_host_and_missing :
    ∃ route : Route Unit,
      Route.new "http://:h/:a/:b".toList (.fixed true [(['b'], .ofText "x y")]) = .ok route ∧
      route.template.BindsTo true (givenText [(['h'], .ofText "q")] [(['b'], .ofText "x y")])
        "http://:h/x%20y".toList := by
  have made : Route.new "http://:h/:a/:b".toList
      (.fixed true [(['b'], .ofText "x y")] : RouteDefaults Unit) = .ok ⟨_, _⟩ :=
    new_eq_ok_iff.mpr ⟨if_neg (by decide), rfl⟩
  obtain ⟨⟨url, bound, only⟩, -⟩ := bind_bindsTo made [(['h'], .ofText "q")] ()
  refine ⟨_, made, (only _).mpr ?_⟩
  have bound' : _ = url := congrArg Prod.fst bound
  rw [← bound']
  decide +kernel

end Route
end RoutePlan
