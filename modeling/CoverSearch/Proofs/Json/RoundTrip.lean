import CoverSearch.Json.Reader
import CoverSearch.Proofs.Json.Tokens

/-!
# Values are read as they are written

Both halves of the reader follow the tokens of a value. The scanner finds them in every text of theirs, as no two
numbers are neighbours in a value. The reader puts the value together from them, under whatever arrays and objects are
open; and it has no other way to a value, because at every token it knows which tokens it has taken. So a text is read
as a value exactly if it is a text of the tokens of that value.

* `Json.Writable` : a value all of whose strings and numbers can be written;
* `Json.separated_tokens` : the scanner finds the tokens of a value;
* `Json.Reader.run?_tokens` : the value of these tokens;
* `Json.Reader.taken`, `Json.Reader.taken_run?` : the tokens that a reader has taken;
* `Json.Spelled`, `Json.parse?_eq_some_iff` : the texts of a value, and that these are the ones read as it;
* `Json.parse?_render` : a written value is read as itself.
-/

namespace CoverSearch.Json

/-! ## Values that can be written -/

/-- All strings and numbers of a value can be written. -/
def Writable (v : Json) : Prop := ∀ t ∈ v.tokens, t.Writable

theorem forall_itemTokens {items : List Json} :
    (∀ t ∈ itemTokens items, t.Writable) ↔ ∀ item ∈ items, item.Writable := by
  induction items with
  | nil => simp [itemTokens, Token.Writable]
  | cons item items ih =>
    rw [itemTokens, List.forall_mem_cons, List.forall_mem_append, ih, List.forall_mem_cons]
    exact and_iff_right trivial

theorem forall_fieldTokens {fields : List (Text × Json)} :
    (∀ t ∈ fieldTokens fields, t.Writable) ↔ ∀ f ∈ fields, (Token.string f.1).Writable ∧ f.2.Writable := by
  induction fields with
  | nil => simp [fieldTokens, Token.Writable]
  | cons f fields ih =>
    obtain ⟨key, v⟩ := f
    rw [fieldTokens, List.forall_mem_cons, List.forall_mem_cons, List.forall_mem_cons, List.forall_mem_append, ih,
      List.forall_mem_cons, and_assoc]
    constructor
    · rintro ⟨-, hkey, -, hv, hfields⟩
      exact ⟨hkey, hv, hfields⟩
    · rintro ⟨hkey, hv, hfields⟩
      exact ⟨trivial, hkey, trivial, hv, hfields⟩

theorem writable_array {items : List Json} : (Json.array items).Writable ↔ ∀ item ∈ items, item.Writable := by
  rw [← forall_itemTokens]
  cases items <;> simp [Writable, tokens, itemTokens, Token.Writable]

theorem writable_object {fields : List (Text × Json)} :
    (Json.object fields).Writable ↔ ∀ f ∈ fields, (Token.string f.1).Writable ∧ f.2.Writable := by
  rw [← forall_fieldTokens]
  cases fields <;> simp [Writable, tokens, fieldTokens, Token.Writable]

/-! ## Texts -/

theorem Separated.cons {t : Token} {ts : List Token} (h : Separated ts) (ht : ¬ t.IsNumber) : Separated (t :: ts) :=
  List.isChain_cons.2 ⟨fun _ _ hnumber => absurd hnumber ht, h⟩

mutual

/-- The tokens of a value may stand in front of tokens that do not start with a number. -/
theorem separated_append : ∀ (v : Json) {ts : List Token}, Separated ts → (∀ t ∈ ts.head?, ¬ t.IsNumber) →
    Separated (v.tokens ++ ts)
  | .null, _, hts, _ | .bool _, _, hts, _ | .string _, _, hts, _ => by
    rw [tokens, List.singleton_append]
    exact hts.cons id
  | .number n, _, hts, hhead => by
    rw [tokens, List.singleton_append]
    exact List.isChain_cons.2 ⟨fun t ht _ => hhead t ht, hts⟩
  | .array [], _, hts, _ | .object [], _, hts, _ => by
    rw [tokens]
    exact (hts.cons id).cons id
  | .array (item :: items), ts, hts, _ => by
    obtain ⟨hrest, hhead⟩ := separated_itemTokens items hts
    rw [tokens, List.cons_append, List.append_assoc]
    exact (separated_append item hrest hhead).cons id
  | .object ((key, v) :: fields), ts, hts, _ => by
    obtain ⟨hrest, hhead⟩ := separated_fieldTokens fields hts
    rw [tokens, List.cons_append, List.cons_append, List.cons_append, List.append_assoc]
    exact (((separated_append v hrest hhead).cons id).cons id).cons id

theorem separated_itemTokens : ∀ (items : List Json) {ts : List Token}, Separated ts →
    Separated (itemTokens items ++ ts) ∧ ∀ t ∈ (itemTokens items ++ ts).head?, ¬ t.IsNumber
  | [], _, hts => by
    rw [itemTokens, List.singleton_append]
    exact ⟨hts.cons id, by rintro _ ⟨⟩; exact id⟩
  | item :: items, ts, hts => by
    obtain ⟨hrest, hhead⟩ := separated_itemTokens items hts
    rw [itemTokens, List.cons_append, List.append_assoc]
    exact ⟨(separated_append item hrest hhead).cons id, by rintro _ ⟨⟩; exact id⟩

theorem separated_fieldTokens : ∀ (fields : List (Text × Json)) {ts : List Token}, Separated ts →
    Separated (fieldTokens fields ++ ts) ∧ ∀ t ∈ (fieldTokens fields ++ ts).head?, ¬ t.IsNumber
  | [], _, hts => by
    rw [fieldTokens, List.singleton_append]
    exact ⟨hts.cons id, by rintro _ ⟨⟩; exact id⟩
  | (key, v) :: fields, ts, hts => by
    obtain ⟨hrest, hhead⟩ := separated_fieldTokens fields hts
    rw [fieldTokens, List.cons_append, List.cons_append, List.cons_append, List.append_assoc]
    exact ⟨(((separated_append v hrest hhead).cons id).cons id).cons id, by rintro _ ⟨⟩; exact id⟩

end

theorem separated_tokens (v : Json) : Separated v.tokens := by
  rw [← List.append_nil v.tokens]
  exact separated_append v List.isChain_nil nofun

/-! ## Tokens -/

namespace Reader

/-- The first item of an array starts as any value does, as no value starts with a closing bracket. -/
theorem run?_itemOrClose (v : Json) (frames : List Frame) (ts : List Token) :
    run? ⟨.itemOrClose, frames⟩ (v.tokens ++ ts) = run? ⟨.value, .array [] :: frames⟩ (v.tokens ++ ts) := by
  match v with
  | .null | .bool _ | .number _ | .string _ | .array [] | .array (_ :: _) | .object [] | .object ((_, _) :: _) => rfl

mutual

/-- The reader puts a value together from its tokens, whatever is open around it. -/
theorem run?_tokens : ∀ (v : Json) (frames : List Frame) (ts : List Token),
    run? ⟨.value, frames⟩ (v.tokens ++ ts) = run? ⟨.separator v, frames⟩ ts
  | .null, _, _ | .bool _, _, _ | .number _, _, _ | .string _, _, _ | .array [], _, _ | .object [], _, _ => rfl
  | .array (item :: items), frames, ts => by
    rw [tokens, List.cons_append, List.append_assoc]
    show run? ⟨.itemOrClose, frames⟩ (item.tokens ++ (itemTokens items ++ ts)) = _
    rw [run?_itemOrClose, run?_tokens item, run?_itemTokens items]
    rfl
  | .object ((key, v) :: fields), frames, ts => by
    rw [tokens, List.cons_append, List.cons_append, List.cons_append, List.append_assoc]
    show run? ⟨.value, .object [] key :: frames⟩ (v.tokens ++ (fieldTokens fields ++ ts)) = _
    rw [run?_tokens v, run?_fieldTokens fields]
    rfl

theorem run?_itemTokens : ∀ (items : List Json) (v : Json) (done : List Json) (frames : List Frame) (ts : List Token),
    run? ⟨.separator v, .array done :: frames⟩ (itemTokens items ++ ts) =
      run? ⟨.separator (.array ((v :: done).reverse ++ items)), frames⟩ ts
  | [], v, done, frames, ts => by
    rw [List.append_nil]
    rfl
  | item :: items, v, done, frames, ts => by
    rw [itemTokens, List.cons_append, List.append_assoc]
    show run? ⟨.value, .array (v :: done) :: frames⟩ (item.tokens ++ (itemTokens items ++ ts)) = _
    rw [run?_tokens item, run?_itemTokens items, List.reverse_cons, List.append_assoc]
    rfl

theorem run?_fieldTokens : ∀ (fields : List (Text × Json)) (key : Text) (v : Json) (done : List (Text × Json))
    (frames : List Frame) (ts : List Token),
    run? ⟨.separator v, .object done key :: frames⟩ (fieldTokens fields ++ ts) =
      run? ⟨.separator (.object (((key, v) :: done).reverse ++ fields)), frames⟩ ts
  | [], key, v, done, frames, ts => by
    rw [List.append_nil]
    rfl
  | (key', v') :: fields, key, v, done, frames, ts => by
    rw [fieldTokens, List.cons_append, List.cons_append, List.cons_append, List.append_assoc]
    show run? ⟨.value, .object ((key, v) :: done) key' :: frames⟩ (v'.tokens ++ (fieldTokens fields ++ ts)) = _
    rw [run?_tokens v', run?_fieldTokens fields, List.reverse_cons, List.append_assoc]
    rfl

end

/-! ### The tokens that have been taken -/

/-- The tokens of fields that each are followed by another one. -/
def openedFields (done : List (Text × Json)) : List Token :=
  .openObject :: done.reverse.flatMap fun (key, v) => .string key :: .colon :: (v.tokens ++ [.comma])

/-- The tokens of an open array or object in front of the current value. -/
def opened : Frame → List Token
  | .array done => .openArray :: done.reverse.flatMap fun v => v.tokens ++ [.comma]
  | .object done key => openedFields done ++ [.string key, .colon]

/-- The tokens in front of what comes next. -/
def begun : Expected → List Token
  | .value => []
  | .itemOrClose => [.openArray]
  | .keyOrClose => [.openObject]
  | .key done => openedFields done
  | .colon done key => openedFields done ++ [.string key]
  | .separator v => v.tokens

/-- All tokens that have been taken. -/
def taken (r : Reader) : List Token := r.frames.reverse.flatMap opened ++ begun r.expected

theorem tokens_append_itemTokens (item : Json) (items : List Json) (v : Json) :
    item.tokens ++ itemTokens (items ++ [v]) =
      ((item :: items).flatMap fun v => v.tokens ++ [.comma]) ++ (v.tokens ++ [.closeArray]) := by
  induction items generalizing item with
  | nil => simp [itemTokens]
  | cons next items ih => rw [List.cons_append, itemTokens, ih, List.flatMap_cons]; simp

/-- An array is closed behind its last item. -/
theorem tokens_array_concat (done : List Json) (v : Json) :
    (Json.array (done.reverse ++ [v])).tokens = opened (.array done) ++ (v.tokens ++ [.closeArray]) := by
  rw [opened]
  cases done.reverse with
  | nil => simp [tokens, itemTokens]
  | cons item items => rw [List.cons_append, tokens, tokens_append_itemTokens, List.cons_append]

theorem tokens_append_fieldTokens (key : Text) (v : Json) (fields : List (Text × Json)) (f : Text × Json) :
    .string key :: .colon :: (v.tokens ++ fieldTokens (fields ++ [f])) =
      (((key, v) :: fields).flatMap fun (key, v) => .string key :: .colon :: (v.tokens ++ [.comma])) ++
        .string f.1 :: .colon :: (f.2.tokens ++ [.closeObject]) := by
  induction fields generalizing key v with
  | nil => simp [fieldTokens]
  | cons next fields ih => rw [List.cons_append, fieldTokens, ih, List.flatMap_cons]; simp

/-- An object is closed behind its last field. -/
theorem tokens_object_concat (done : List (Text × Json)) (key : Text) (v : Json) :
    (Json.object (done.reverse ++ [(key, v)])).tokens = opened (.object done key) ++ (v.tokens ++ [.closeObject]) := by
  rw [opened, openedFields]
  cases done.reverse with
  | nil => simp [tokens, fieldTokens]
  | cons f fields => rw [List.cons_append, tokens, tokens_append_fieldTokens]; simp

theorem taken_beginValue? {frames : List Frame} {t : Token} {r : Reader} (h : beginValue? frames t = some r) :
    r.taken = frames.reverse.flatMap opened ++ [t] := by
  unfold beginValue? at h
  split at h
  case h_7 => cases h
  all_goals
    obtain rfl := Option.some.inj h
    rfl

theorem taken_endValue? {v : Json} {frames : List Frame} {t : Token} {r : Reader} (h : endValue? v frames t = some r) :
    r.taken = frames.reverse.flatMap opened ++ (v.tokens ++ [t]) := by
  unfold endValue? at h
  split at h
  case h_5 => cases h
  all_goals
    obtain rfl := Option.some.inj h
    simp only [taken, begun, List.reverse_cons, List.flatMap_append, List.flatMap_singleton, List.append_assoc]
  case h_1 | h_3 => simp [opened, openedFields]
  case h_2 => rw [tokens_array_concat]
  case h_4 => rw [tokens_object_concat]

/-- A step takes one token. -/
theorem taken_step? {r r' : Reader} {t : Token} (h : r.step? t = some r') : r'.taken = r.taken ++ [t] := by
  obtain ⟨expected, frames⟩ := r
  unfold step? at h
  cases expected with
  | value => rw [taken_beginValue? h, taken, begun, List.append_nil]
  | itemOrClose =>
    split at h <;> try contradiction
    · obtain rfl := Option.some.inj h
      simp [taken, begun, tokens]
    · rw [taken_beginValue? h]
      simp [taken, begun, opened]
  | keyOrClose =>
    split at h <;> try contradiction
    all_goals
      obtain rfl := Option.some.inj h
      simp [taken, begun, tokens, openedFields]
  | key done =>
    split at h <;> try contradiction
    next hexpected =>
      cases hexpected
      obtain rfl := Option.some.inj h
      simp [taken, begun]
  | colon done key =>
    split at h <;> try contradiction
    next hexpected =>
      cases hexpected
      obtain rfl := Option.some.inj h
      simp [taken, begun, opened]
  | separator v => rw [taken_endValue? h, taken, begun, List.append_assoc]

theorem taken_run? {r r' : Reader} {ts : List Token} (h : r.run? ts = some r') : r'.taken = r.taken ++ ts := by
  induction ts generalizing r with
  | nil =>
    obtain rfl := Option.some.inj h
    exact (List.append_nil _).symm
  | cons t ts ih =>
    rw [run?] at h
    split at h
    · cases h
    · next r₁ hstep => rw [ih h, taken_step? hstep, List.append_assoc, List.singleton_append]

theorem taken_of_result? {r : Reader} {v : Json} (h : r.result? = some v) : r.taken = v.tokens := by
  unfold result? at h
  split at h
  · obtain rfl := Option.some.inj h
    rfl
  · cases h

end Reader

/-- The texts of a value. -/
def Spelled (v : Json) (text : String) : Prop := Spells v.tokens text.toList

theorem spelled_render {v : Json} (hv : v.Writable) : v.Spelled v.render := by
  rw [Spelled, render, String.toList_ofList]
  exact spells_render hv

theorem parse?_of_spelled {v : Json} {text : String} (h : v.Spelled text) : parse? text = some v := by
  have hrun := Reader.run?_tokens v [] []
  rw [List.append_nil] at hrun
  rw [parse?, tokens?_of_spells h v.separated_tokens, Option.bind_eq_bind, Option.bind_some, Reader.start, hrun]
  rfl

theorem spelled_of_parse? {v : Json} {text : String} (h : parse? text = some v) : v.Spelled text := by
  obtain ⟨ts, hts, h⟩ := Option.bind_eq_some_iff.1 h
  obtain ⟨r, hr, h⟩ := Option.bind_eq_some_iff.1 h
  have htaken : v.tokens = ts := (Reader.taken_of_result? h).symm.trans (Reader.taken_run? hr)
  rw [Spelled, htaken]
  exact spells_of_tokens? hts

/-- The reader accepts the texts of values, and reads each as its value. -/
theorem parse?_eq_some_iff {v : Json} {text : String} : parse? text = some v ↔ v.Spelled text :=
  ⟨spelled_of_parse?, parse?_of_spelled⟩

/-- A written value is read as itself. -/
theorem parse?_render {v : Json} (hv : v.Writable) : parse? v.render = some v := parse?_of_spelled (spelled_render hv)

end CoverSearch.Json
