import RoutePlan.Proofs.Route.CanonicalBytes
import RoutePlan.Proofs.Route.Filling
import RoutePlan.Proofs.Template.Cursor

/-!
Binding by byte position. The walk over the parts adds up byte lengths, cuts the literal in which
the scheme and host end, and looks at what stands behind a slot without text. Its offset is where
the next part begins in the unescaped text, so that no cut misses a boundary, and what it writes is
the URL of binding character by character.
-/
namespace RoutePlan

def authorityBytes (url : Text) : Nat :=
  match "http://".toList.isPrefixOf? url <|> "https://".toList.isPrefixOf? url with
  | none => 0
  | some rest =>
    Text.byteLength url - Text.byteLength rest + Text.lengthUntil (· == '/') rest

theorem authorityBytes_eq (url : Text) :
    authorityBytes url = url.byteOffset (authorityLength url) := by
  unfold authorityBytes authorityLength
  cases found : "http://".toList.isPrefixOf? url <|> "https://".toList.isPrefixOf? url with
  | none => rfl
  | some rest =>
    obtain ⟨scheme, rfl⟩ := exists_scheme found
    have host : rest.take (rest.takeWhile (· != '/')).length = rest.takeWhile (· != '/') :=
      (List.prefix_iff_eq_take.mp (List.takeWhile_prefix _)).symm
    dsimp only
    rw [Text.byteOffset, List.length_append, Nat.add_sub_cancel, List.take_length_add_append, host,
      Text.byteLength_append, Text.byteLength_append, Nat.add_sub_cancel, Text.lengthUntil_eq]
    rfl

namespace Template

theorem byteLength_authority (template : Template) :
    template.authority.byteLength = authorityBytes template.unescaped :=
  (authorityBytes_eq template.unescaped).symm

theorem authority_isFront (template : Template) : template.authority <+: template.unescaped :=
  List.take_prefix _ _

theorem byteLength_slot (front name : Text) :
    Text.byteLength (front ++ ':' :: name) = front.byteLength + name.byteLength + 1 := by
  have colon : ':'.utf8Size = 1 := rfl
  rw [Text.byteLength_append, Text.byteLength_cons, colon, Nat.add_assoc, Nat.add_comm 1]

theorem index_lt_of_parse {source : Text} {template : Template}
    (parsed : parse source = .ok template) {index : Nat}
    (member : Part.slot index ∈ template.parts) : index < template.slots.length := by
  obtain rfl := eq_ofPieces_of_parse parsed
  exact (slot_mem_parts_iff source _ index).mp member

def offsetBehind (template : Template) (before : List Part) : Nat :=
  Text.byteLength (before.flatMap (partText template.slots))

theorem segmentsFrom_cons (raw : Text) (limit : Nat) (slots : List Slot) (offset : Nat)
    (part : Part) (rest : List Part) :
    segmentsFrom raw limit slots offset (part :: rest) =
      segmentsFrom raw limit slots offset [part] ++
        segmentsFrom raw limit slots (offset + (partText slots part).length) rest := by
  cases part with
  | literal text =>
    simp only [segmentsFrom, partText]
    split <;> rfl
  | slot index =>
    cases found : slots[index]? with
    | none => simp [segmentsFrom, partText, found]
    | some slot =>
      simp only [segmentsFrom, partText, found, List.length_cons, Nat.add_assoc]
      split <;> rfl

section
variable {template : Template} {front text back : Text}

theorem authorityBytes_le_iff (isFront : front <+: template.unescaped) :
    authorityBytes template.unescaped ≤ front.byteLength ↔
      authorityLength template.unescaped ≤ front.length := by
  rw [← template.byteLength_authority, ← template.length_authority, ← Nat.not_lt, ← Nat.not_lt]
  exact not_congr (Text.byteLength_lt_iff isFront template.authority_isFront)

variable (whole : template.unescaped = front ++ (text ++ back))
include whole

theorem authorityBytes_lt_iff :
    authorityBytes template.unescaped < front.byteLength + text.byteLength ↔
      authorityLength template.unescaped < front.length + text.length := by
  have isFront : front ++ text <+: template.unescaped := ⟨back, by rw [whole, List.append_assoc]⟩
  rw [← template.byteLength_authority, ← template.length_authority, ← Text.byteLength_append,
    ← List.length_append]
  exact Text.byteLength_lt_iff template.authority_isFront isFront

theorem authorityBytes_sub
    (reaches : authorityLength template.unescaped < front.length + text.length) :
    authorityBytes template.unescaped - front.byteLength =
      text.byteOffset (authorityLength template.unescaped - front.length) := by
  have isFront := whole ▸ template.authority_isFront
  rw [← template.length_authority] at reaches ⊢
  rw [← template.byteLength_authority]
  exact Text.byteLength_sub isFront reaches.le

end

end Template

namespace Route
variable {σ : Type}

structure Walk where
  path : Text
  offset : Nat

def Walk.start : Walk := ⟨[], 0⟩

def total {α : Type} (step : StateM σ α) : StateT σ Option α := fun s => some (step s)

/-- Walks over one part. It leads nowhere if a cut misses a boundary or the slot table ends before
the index. -/
def walkPart? (route : Route σ) (template : Template) (params : Dict Json) (walk : Walk) :
    Part → StateT σ Option Walk
  | .literal text => do
    let limit := authorityBytes template.unescaped
    let stop := walk.offset + text.byteLength
    if limit < stop then
      let written ← text.from? (limit - walk.offset)
      return ⟨walk.path ++ written, stop⟩
    else return ⟨walk.path, stop⟩
  | .slot index => do
    let slot ← template.slots[index]?
    let stop := walk.offset + slot.name.byteLength + 1
    if authorityBytes template.unescaped ≤ walk.offset then
      match ← total (route.textFor params slot.name) with
      | some text => return ⟨walk.path ++ slot.encoding.encode text, stop⟩
      | none =>
        let behind ← template.unescaped.from? stop
        let closes := behind.head? == some '/' && walk.path.getLast? == some '/'
        return ⟨if closes then walk.path.dropLast else walk.path, stop⟩
    else return ⟨walk.path, stop⟩

def walk? (route : Route σ) (template : Template) (params : Dict Json) (parts : List Part) :
    StateT σ Option Walk :=
  parts.foldlM (route.walkPart? template params) .start

def expand? (route : Route σ) (template : Template) (params : Dict Json) :
    StateT σ Option Text := do
  let walk ← route.walk? template params template.parts
  let path ← canonicalize? route.defaults.stripTrailingSlashes walk.path
  let authority ← template.unescaped.upTo? (authorityBytes template.unescaped)
  return authority ++ path

def bind? (route : Route σ) (params : Dict Json) : StateT σ Option Text :=
  route.expand? route.template params

def bindUrl? (route : Route σ) (url : Text) (params : Dict Json) :
    StateT σ Option (Except RouteError Text) := do
  match ← Template.parseAt? url with
  | .error error => return .error error
  | .ok template => return .ok (← route.expand? template params)

theorem bind_of_eq {α β : Type} {first : StateT σ Option α} {next : α → StateT σ Option β}
    {s s' : σ} {a : α} (done : first s = some (a, s')) : (first >>= next) s = next a s' := by
  change (first s).bind _ = _
  rw [done]
  rfl

theorem lift_of_eq {α β : Type} {found : Option α} {next : α → StateT σ Option β} {s : σ} {a : α}
    (there : found = some a) : ((liftM found : StateT σ Option α) >>= next) s = next a s := by
  rw [there]
  rfl

variable (route : Route σ) (template : Template) (params : Dict Json)

def written (front : Text) (parts : List Part) (path : Text) : StateM σ Text :=
  (Template.segmentsFrom template.unescaped (authorityLength template.unescaped) template.slots
    front.length parts).foldlM (route.extend params) path

theorem written_cons (front : Text) (part : Part) (rest : List Part) (path : Text) (s : σ) :
    route.written template params front (part :: rest) path s =
      let first := route.written template params front [part] path s
      route.written template params (front ++ Template.partText template.slots part) rest
        first.1 first.2 := by
  unfold written
  rw [Template.segmentsFrom_cons, List.foldlM_append, run_bind, List.length_append]

variable {template}

theorem walkPart?_literal {front text back : Text}
    (whole : template.unescaped = front ++ (text ++ back)) (path : Text) (s : σ) :
    route.walkPart? template params ⟨path, front.byteLength⟩ (.literal text) s =
      let result := route.written template params front [.literal text] path s
      some (⟨result.1, (front ++ text).byteLength⟩, result.2) := by
  have crosses := Template.authorityBytes_lt_iff whole
  simp only [walkPart?, written, Template.segmentsFrom]
  by_cases reaches : authorityLength template.unescaped < front.length + text.length
  · have cut := Text.from?_byteOffset text (authorityLength template.unescaped - front.length)
    rw [← Template.authorityBytes_sub whole reaches] at cut
    rw [if_pos (crosses.mpr reaches), if_pos reaches, lift_of_eq cut, Text.byteLength_append]
    rfl
  · rw [if_neg (mt crosses.mp reaches), if_neg reaches, Text.byteLength_append]
    rfl

theorem walkPart?_slot {front back : Text} {index : Nat} {slot : Slot}
    (there : template.slots[index]? = some slot)
    (whole : template.unescaped = front ++ (':' :: slot.name ++ back)) (path : Text) (s : σ) :
    route.walkPart? template params ⟨path, front.byteLength⟩ (.slot index) s =
      let result := route.written template params front [.slot index] path s
      some (⟨result.1, (front ++ ':' :: slot.name).byteLength⟩, result.2) := by
  have isFront : front <+: template.unescaped := ⟨_, whole.symm⟩
  have starts := Template.authorityBytes_le_iff isFront
  have behind : template.unescaped.from? (front ++ ':' :: slot.name).byteLength = some back := by
    rw [whole, ← List.append_assoc, Text.from?_append]
  have ahead : template.unescaped.drop (front.length + slot.name.length + 1) = back := by
    rw [whole, ← List.append_assoc]
    exact List.drop_left' (by simp [Nat.add_assoc])
  rw [walkPart?, lift_of_eq there, written, Template.segmentsFrom, there]
  dsimp only
  rw [← Template.byteLength_slot, ahead]
  by_cases behindLimit : authorityLength template.unescaped ≤ front.length
  · rw [if_pos (starts.mpr behindLimit), if_pos behindLimit, List.foldlM_cons, run_bind]
    simp only [extend, run_bind]
    have filled : total (route.textFor params slot.name) s =
        some ((route.textFor params slot.name s).1, (route.textFor params slot.name s).2) := rfl
    rw [bind_of_eq filled]
    cases (route.textFor params slot.name s).1 with
    | some text => rfl
    | none =>
      dsimp only
      rw [lift_of_eq behind]
      rfl
  · rw [if_neg (mt starts.mp behindLimit), if_neg behindLimit]
    rfl

theorem walkPart?_eq {front back : Text} {part : Part}
    (listed : ∀ index, part = .slot index → index < template.slots.length)
    (whole : template.unescaped = front ++ (Template.partText template.slots part ++ back))
    (path : Text) (s : σ) :
    route.walkPart? template params ⟨path, front.byteLength⟩ part s =
      let result := route.written template params front [part] path s
      some (⟨result.1, (front ++ Template.partText template.slots part).byteLength⟩,
        result.2) := by
  cases part with
  | literal text => exact walkPart?_literal route params whole path s
  | slot index =>
    have there := List.getElem?_eq_getElem (listed index rfl)
    rw [Template.partText, there] at whole ⊢
    exact walkPart?_slot route params there whole path s

theorem foldlM_walkPart? {front back : Text} {parts : List Part}
    (listed : ∀ index, Part.slot index ∈ parts → index < template.slots.length)
    (whole : template.unescaped =
      front ++ (parts.flatMap (Template.partText template.slots) ++ back)) (path : Text) (s : σ) :
    parts.foldlM (route.walkPart? template params) ⟨path, front.byteLength⟩ s =
      let result := route.written template params front parts path s
      some (⟨result.1, (front ++ parts.flatMap (Template.partText template.slots)).byteLength⟩,
        result.2) := by
  induction parts generalizing front path s with
  | nil =>
    rw [List.flatMap_nil, List.append_nil]
    rfl
  | cons part rest ih =>
    -- Behind the part the walk stands again where a stretch of the unescaped text begins.
    rw [List.flatMap_cons, List.append_assoc] at whole
    have listedPart : ∀ index, part = .slot index → index < template.slots.length :=
      fun index isSlot => listed index (isSlot ▸ List.mem_cons_self)
    have wholeRest : template.unescaped = (front ++ Template.partText template.slots part) ++
        (rest.flatMap (Template.partText template.slots) ++ back) := by
      rw [whole, List.append_assoc]
    have first := walkPart?_eq route params listedPart whole path s
    have later := ih (fun index member => listed index (List.mem_cons_of_mem _ member)) wholeRest
    rw [List.foldlM_cons, bind_of_eq first, later, written_cons _ _ _ _ part rest,
      List.flatMap_cons, List.append_assoc]

variable {source : Text}

theorem walk?_eq (parsed : Template.parse source = .ok template) {before after : List Part}
    (split : template.parts = before ++ after) (s : σ) :
    route.walk? template params before s =
      let result := route.written template params [] before [] s
      some (⟨result.1, template.offsetBehind before⟩, result.2) := by
  have listed (index : Nat) (member : Part.slot index ∈ before) :
      index < template.slots.length :=
    Template.index_lt_of_parse parsed (split ▸ List.mem_append_left after member)
  have whole : template.unescaped = [] ++ (before.flatMap (Template.partText template.slots) ++
      after.flatMap (Template.partText template.slots)) := by
    rw [Template.unescaped, split, List.flatMap_append]
    rfl
  exact foldlM_walkPart? route params listed whole [] s

theorem expand?_eq (parsed : Template.parse source = .ok template) (s : σ) :
    route.expand? template params s = some (route.expand template params s) := by
  have walked := walk?_eq route params parsed (List.append_nil template.parts).symm s
  have cut := Text.upTo?_append template.authority
    (template.unescaped.drop (authorityLength template.unescaped))
  rw [template.byteLength_authority, Template.authority, List.take_append_drop] at cut
  rw [expand?, bind_of_eq walked, lift_of_eq (canonicalize?_eq _ _), lift_of_eq cut]
  rfl

theorem bindUrl?_eq (url : Text) (s : σ) :
    route.bindUrl? url params s = some (route.bindUrl url params s) := by
  rw [bindUrl?, lift_of_eq (Template.parseAt?_eq url)]
  cases parsed : Template.parse url with
  | error error =>
    rw [bindUrl, parsed]
    rfl
  | ok template =>
    dsimp only
    rw [bind_of_eq (expand?_eq route params parsed s), bindUrl_of_parse parsed]
    rfl

end Route

/-! ### Where the parts lie -/

namespace Template

structure Laid (template : Template) : Prop where
  authority : template.unescaped.IsBoundary (authorityBytes template.unescaped)
  literal : ∀ before text after, template.parts = before ++ .literal text :: after →
    authorityBytes template.unescaped < template.offsetBehind before + text.byteLength →
      text.IsBoundary (authorityBytes template.unescaped - template.offsetBehind before)
  slot : ∀ before index after, template.parts = before ++ .slot index :: after →
    ∃ slot, template.slots[index]? = some slot ∧
      let stop := template.offsetBehind before + slot.name.byteLength + 1
      template.unescaped.IsBoundary stop ∧
        (stop ≤ authorityBytes template.unescaped ∨
          authorityBytes template.unescaped ≤ template.offsetBehind before)

variable {source : Text} {template : Template} {before after : List Part}

theorem unescaped_of_split {part : Part} (split : template.parts = before ++ part :: after) :
    template.unescaped = before.flatMap (partText template.slots) ++
      (partText template.slots part ++ after.flatMap (partText template.slots)) := by
  rw [unescaped, split, List.flatMap_append, List.flatMap_cons]

theorem slot_apart (parsed : parse source = .ok template) {index : Nat} {slot : Slot}
    (there : template.slots[index]? = some slot)
    (split : template.parts = before ++ .slot index :: after) :
    template.offsetBehind before + slot.name.byteLength + 1 ≤ template.authority.byteLength ∨
      template.authority.byteLength ≤ template.offsetBehind before := by
  obtain ⟨inside, whole, reads⟩ := tokens_split parsed
  have tokens : template.tokens = before.flatMap (partTokens template.slots) ++
      (.slot slot :: after.flatMap (partTokens template.slots)) := by
    rw [Template.tokens, split, List.flatMap_append, List.flatMap_cons, partTokens, there]
    rfl
  have offset : template.offsetBehind before =
      Text.byteLength (Token.reading (before.flatMap (partTokens template.slots))) := by
    rw [reading_flatMap_partTokens, offsetBehind]
  rw [offset, ← reads]
  rcases List.append_eq_append_iff.mp (whole.symm.trans tokens) with
    ⟨more, front, -⟩ | ⟨more, front, back⟩
  · right
    rw [front, Token.reading_append]
    exact Text.byteLength_le_of_front (List.prefix_append _ _)
  · cases more with
    | nil =>
      right
      rw [front, List.append_nil]
    | cons token more =>
      -- The scheme and host reach behind the offset, and with it over the whole of the slot.
      left
      obtain ⟨rfl, -⟩ := List.cons.inj back
      rw [front, Token.reading_append, Token.reading_cons, Token.text, ← byteLength_slot,
        ← List.append_assoc]
      exact Text.byteLength_le_of_front (List.prefix_append _ _)

theorem laid_of_parse (parsed : parse source = .ok template) : template.Laid where
  authority := by
    rw [authorityBytes_eq]
    exact Text.isBoundary_byteOffset _ _
  literal := by
    intro before text after split reaches
    have whole := unescaped_of_split split
    rw [offsetBehind, authorityBytes_sub whole ((authorityBytes_lt_iff whole).mp reaches)]
    exact Text.isBoundary_byteOffset text _
  slot := by
    intro before index after split
    have listed : index < template.slots.length := index_lt_of_parse parsed (by simp [split])
    have there := List.getElem?_eq_getElem listed
    refine ⟨_, there, ?_, ?_⟩
    · have whole := unescaped_of_split split
      rw [partText, there, ← List.append_assoc] at whole
      have boundary := Text.isBoundary_append
        (before.flatMap (partText template.slots) ++ ':' :: template.slots[index].name)
        (after.flatMap (partText template.slots))
      rwa [← whole, byteLength_slot] at boundary
    · rw [← template.byteLength_authority]
      exact slot_apart parsed there split

end Template

namespace Route

/-- Reading a template and binding it never cut a text outside of a boundary or look behind the end
of the slot table. The loop that reads stands at a boundary in every round and moves on, the walk
that binds has every part begin at its own offset, and the result is the one without byte
positions. -/
theorem cuts_at_boundaries {σ : Type} (source : Text) (params : Dict Json) (s : σ) :
    (∀ text position, (Text.splitAt? position text).isSome ↔ text.IsBoundary position) ∧
    (∀ cursor, Template.Cursor.Reached source cursor →
      source.IsBoundary cursor.position ∧ cursor.position ≤ source.byteLength ∧
      ∃ round, cursor.step? source = some round ∧
        ∀ next, round = .next next → cursor.position < next.position) ∧
    Template.parseAt? source = some (Template.parse source) ∧
    (∀ template, Template.parse source = .ok template → template.Laid ∧
      ∀ route : Route σ,
        (∀ before after, template.parts = before ++ after → ∃ path later,
          route.walk? template params before s =
            some (⟨path, template.offsetBehind before⟩, later)) ∧
        (∃ path later, route.walk? template params template.parts s =
          some (⟨path, template.unescaped.byteLength⟩, later)) ∧
        route.expand? template params s = some (route.expand template params s)) ∧
    (∀ defaults route, Route.new source defaults = .ok route →
      route.bind? params s = some (route.bind params s)) ∧
    (∀ route : Route σ,
      route.bindUrl? source params s = some (route.bindUrl source params s)) ∧
    ∀ strip path,
      canonicalize? strip path = some (canonicalize strip path) ∧
      ∃ found, searchAt? path 0 = some found ∧
        ∀ position, found = some position →
          path.IsBoundary position ∧ position < path.byteLength := by
  refine ⟨fun _ _ => Text.isSome_splitAt?_iff, ?_, Template.parseAt?_eq source, ?_, ?_,
    fun route => bindUrl?_eq route params source s, ?_⟩
  · intro cursor reached
    have sound := Template.Cursor.sound_of_reached reached
    obtain ⟨round, outcome, further⟩ := sound.round
    exact ⟨sound.boundary, sound.boundary.le, round, outcome,
      fun next moved => (further next moved).1⟩
  · intro template parsed
    refine ⟨Template.laid_of_parse parsed, fun route => ⟨?_, ?_, expand?_eq route params parsed s⟩⟩
    · intro before after split
      exact ⟨_, _, walk?_eq route params parsed split s⟩
    · exact ⟨_, _, walk?_eq route params parsed (List.append_nil template.parts).symm s⟩
  · intro defaults route made
    exact expand?_eq route params (new_eq_ok_iff.mp made).1 s
  · intro strip path
    exact ⟨canonicalize?_eq strip path, _, searchAt?_zero path,
      fun position found => boundary_of_searchAt? (found ▸ searchAt?_zero path)⟩

theorem cuts_at_boundaries_multibyte :
    ∃ template, Template.parse "http://é:h/ü:id\\:x/.json?q=:q".toList = .ok template ∧
      template.Laid ∧ authorityBytes template.unescaped = 11 ∧
      template.unescaped.byteLength = 30 ∧
      (∃ path, Route.walk? (σ := Unit) ⟨template, {}⟩ template [(['q'], .ofText "é")]
        template.parts () = some (⟨path, 30⟩, ())) ∧
      Route.expand? (σ := Unit) ⟨template, {}⟩ template [(['q'], .ofText "é")] () =
        some ("http://é:h/ü:x.json?q=%C3%A9".toList, ()) := by
  obtain ⟨template, parsed, limit, size, url⟩ :
      ∃ template, Template.parse "http://é:h/ü:id\\:x/.json?q=:q".toList = .ok template ∧
        authorityBytes template.unescaped = 11 ∧ template.unescaped.byteLength = 30 ∧
        Route.expand (σ := Unit) ⟨template, {}⟩ template [(['q'], .ofText "é")] () =
          ("http://é:h/ü:x.json?q=%C3%A9".toList, ()) :=
    ⟨_, if_neg (by decide), by decide +kernel, by decide +kernel,
      Prod.ext (by decide +kernel) rfl⟩
  obtain ⟨-, -, -, binds, -⟩ :=
    cuts_at_boundaries "http://é:h/ü:id\\:x/.json?q=:q".toList [(['q'], .ofText "é")] ()
  obtain ⟨laid, walks⟩ := binds template parsed
  obtain ⟨-, ⟨path, _, walked⟩, expanded⟩ := walks ⟨template, {}⟩
  rw [size] at walked
  rw [url] at expanded
  exact ⟨template, parsed, laid, limit, size, ⟨path, walked⟩, expanded⟩

end Route
end RoutePlan
