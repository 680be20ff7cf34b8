import Mathlib.Data.List.Basic
import Mathlib.Data.List.Perm.Basic

/-!
# JSON documents read as a stream of tokens

A decoder hands out the tokens of a text one by one, without its commas and colons. A
reader may take a whole value (`takeValue`), step over one without keeping it (`skipValue`),
or go through an array element by element (`streamElements`). On the tokens of a document
each of the three does what the same operation on the document does.
-/

set_option autoImplicit false

namespace OsmMini.Foundations

/-- A JSON value. A number is kept as it is written, and an object keeps the order of its
members and those that are repeated. -/
inductive Json where
  | null
  | bool (value : Bool)
  | number (literal : String)
  | string (text : String)
  | array (elements : List Json)
  | object (members : List (String × Json))

/-- A token of a text. -/
inductive JsonToken where
  | beginObject
  | endObject
  | beginArray
  | endArray
  | null
  | bool (value : Bool)
  | number (literal : String)
  | string (text : String)
  /-- The text goes on, and not as JSON. -/
  | fault
  deriving DecidableEq, Repr

namespace Json

mutual

def tokens : Json → List JsonToken
  | .null => [.null]
  | .bool value => [.bool value]
  | .number literal => [.number literal]
  | .string text => [.string text]
  | .array elements => .beginArray :: (elementTokens elements ++ [.endArray])
  | .object members => .beginObject :: (memberTokens members ++ [.endObject])

def elementTokens : List Json → List JsonToken
  | [] => []
  | value :: elements => tokens value ++ elementTokens elements

def memberTokens : List (String × Json) → List JsonToken
  | [] => []
  | (key, value) :: members => .string key :: (tokens value ++ memberTokens members)

end

/-! ## Taking a value -/

mutual

/-- The value at the head of a stream. The fuel bounds the tokens that are read. -/
def takeWithin : ℕ → List JsonToken → Option (Json × List JsonToken)
  | 0, _ => none
  | _, [] => none
  | fuel + 1, token :: rest =>
    match token with
    | .null => some (.null, rest)
    | .bool value => some (.bool value, rest)
    | .number literal => some (.number literal, rest)
    | .string text => some (.string text, rest)
    | .beginArray => (takeElements fuel rest).map fun (elements, rest) => (.array elements, rest)
    | .beginObject => (takeMembers fuel rest).map fun (members, rest) => (.object members, rest)
    | .endArray | .endObject | .fault => none

def takeElements : ℕ → List JsonToken → Option (List Json × List JsonToken)
  | 0, _ => none
  | _, [] => none
  | fuel + 1, token :: rest =>
    if token = .endArray then some ([], rest)
    else
      match takeWithin fuel (token :: rest) with
      | none => none
      | some (value, rest) =>
        (takeElements fuel rest).map fun (elements, rest) => (value :: elements, rest)

def takeMembers : ℕ → List JsonToken → Option (List (String × Json) × List JsonToken)
  | 0, _ => none
  | _, [] => none
  | fuel + 1, token :: rest =>
    match token with
    | .endObject => some ([], rest)
    | .string key =>
      match takeWithin fuel rest with
      | none => none
      | some (value, rest) =>
        (takeMembers fuel rest).map fun (members, rest) => ((key, value) :: members, rest)
    | _ => none

end

/-- The value at the head of a stream, and what follows it. -/
def takeValue (stream : List JsonToken) : Option (Json × List JsonToken) :=
  takeWithin stream.length stream

/-! ### What is left is shorter -/

mutual

theorem takeWithin_length : ∀ {fuel : ℕ} {stream rest : List JsonToken} {value : Json},
    takeWithin fuel stream = some (value, rest) → rest.length < stream.length
  | 0, _, _, _, taken => by simp [takeWithin] at taken
  | fuel + 1, [], _, _, taken => by simp [takeWithin] at taken
  | fuel + 1, token :: stream, rest, value, taken => by
      cases token with
      | null | bool | number | string =>
          simp only [takeWithin, Option.some.injEq, Prod.mk.injEq] at taken
          simp [← taken.2]
      | beginArray =>
          simp only [takeWithin, Option.map_eq_some_iff, Prod.mk.injEq] at taken
          obtain ⟨⟨elements, left⟩, inner, -, rfl⟩ := taken
          have shorter := takeElements_length inner
          exact Nat.lt_succ_of_lt shorter
      | beginObject =>
          simp only [takeWithin, Option.map_eq_some_iff, Prod.mk.injEq] at taken
          obtain ⟨⟨members, left⟩, inner, -, rfl⟩ := taken
          have shorter := takeMembers_length inner
          exact Nat.lt_succ_of_lt shorter
      | endArray | endObject | fault => simp [takeWithin] at taken

theorem takeElements_length : ∀ {fuel : ℕ} {stream rest : List JsonToken} {elements : List Json},
    takeElements fuel stream = some (elements, rest) → rest.length < stream.length
  | 0, _, _, _, taken => by simp [takeElements] at taken
  | fuel + 1, [], _, _, taken => by simp [takeElements] at taken
  | fuel + 1, token :: stream, rest, elements, taken => by
      rw [takeElements] at taken
      split at taken
      · simp only [Option.some.injEq, Prod.mk.injEq] at taken
        simp [← taken.2]
      · split at taken
        · cases taken
        · next value left first =>
            simp only [Option.map_eq_some_iff, Prod.mk.injEq] at taken
            obtain ⟨⟨more, last⟩, inner, -, rfl⟩ := taken
            have shorter := takeWithin_length first
            exact Nat.lt_trans (takeElements_length inner) shorter

theorem takeMembers_length : ∀ {fuel : ℕ} {stream rest : List JsonToken}
    {members : List (String × Json)},
    takeMembers fuel stream = some (members, rest) → rest.length < stream.length
  | 0, _, _, _, taken => by simp [takeMembers] at taken
  | fuel + 1, [], _, _, taken => by simp [takeMembers] at taken
  | fuel + 1, token :: stream, rest, members, taken => by
      cases token with
      | endObject =>
          simp only [takeMembers, Option.some.injEq, Prod.mk.injEq] at taken
          simp [← taken.2]
      | string key =>
          simp only [takeMembers] at taken
          split at taken
          · cases taken
          · next value left first =>
              simp only [Option.map_eq_some_iff, Prod.mk.injEq] at taken
              obtain ⟨⟨more, last⟩, inner, -, rfl⟩ := taken
              have shorter := takeWithin_length first
              exact Nat.lt_succ_of_lt (Nat.lt_trans (takeMembers_length inner) shorter)
      | null | bool | number | beginArray | beginObject | endArray | fault =>
          simp [takeMembers] at taken

end

theorem takeValue_length {stream rest : List JsonToken} {value : Json}
    (taken : takeValue stream = some (value, rest)) : rest.length < stream.length :=
  takeWithin_length taken

/-! ### The tokens of a document -/

theorem tokens_length_pos : ∀ value : Json, 0 < value.tokens.length
  | .null | .bool _ | .number _ | .string _ => by simp [tokens]
  | .array _ | .object _ => by simp [tokens]

/-- A value begins with a token that ends no array. -/
theorem tokens_head (value : Json) : ∃ token rest, value.tokens = token :: rest ∧
    token ≠ .endArray ∧ token ≠ .endObject := by
  cases value <;> exact ⟨_, _, by rw [tokens], by simp, by simp⟩

mutual

/-- **The value that was written is taken**, and what follows it stays. -/
theorem takeWithin_tokens : ∀ (value : Json) {fuel : ℕ} (rest : List JsonToken),
    value.tokens.length ≤ fuel → takeWithin fuel (value.tokens ++ rest) = some (value, rest)
  | value, 0, rest, enough => by
      have positive := tokens_length_pos value
      omega
  | .null, fuel + 1, rest, _ => rfl
  | .bool _, fuel + 1, rest, _ => rfl
  | .number _, fuel + 1, rest, _ => rfl
  | .string _, fuel + 1, rest, _ => rfl
  | .array elements, fuel + 1, rest, enough => by
      simp only [tokens, List.length_cons, List.length_append, List.length_nil] at enough
      have inner := @takeElements_tokens elements fuel rest (by omega)
      simp only [tokens, List.cons_append, List.append_assoc, List.nil_append, takeWithin, inner,
        Option.map_some]
  | .object members, fuel + 1, rest, enough => by
      simp only [tokens, List.length_cons, List.length_append, List.length_nil] at enough
      have inner := @takeMembers_tokens members fuel rest (by omega)
      simp only [tokens, List.cons_append, List.append_assoc, List.nil_append, takeWithin, inner,
        Option.map_some]

theorem takeElements_tokens : ∀ (elements : List Json) {fuel : ℕ} (rest : List JsonToken),
    (elementTokens elements).length < fuel →
    takeElements fuel (elementTokens elements ++ .endArray :: rest) = some (elements, rest)
  | _, 0, rest, enough => by omega
  | [], fuel + 1, rest, _ => by simp [elementTokens, takeElements]
  | value :: elements, fuel + 1, rest, enough => by
      simp only [elementTokens, List.length_append] at enough
      have positive := tokens_length_pos value
      have first := @takeWithin_tokens value fuel
        (elementTokens elements ++ .endArray :: rest) (by omega)
      have others := @takeElements_tokens elements fuel rest (by omega)
      obtain ⟨token, tail, shape, notEnd, -⟩ := tokens_head value
      rw [shape, List.cons_append] at first
      rw [elementTokens, List.append_assoc, shape, List.cons_append, takeElements, if_neg notEnd,
        first]
      simp only [others, Option.map_some]

theorem takeMembers_tokens : ∀ (members : List (String × Json)) {fuel : ℕ}
    (rest : List JsonToken), (memberTokens members).length < fuel →
    takeMembers fuel (memberTokens members ++ .endObject :: rest) = some (members, rest)
  | _, 0, rest, enough => by omega
  | [], fuel + 1, rest, _ => by simp [memberTokens, takeMembers]
  | (key, value) :: members, fuel + 1, rest, enough => by
      simp only [memberTokens, List.length_cons, List.length_append] at enough
      have first := @takeWithin_tokens value fuel
        (memberTokens members ++ .endObject :: rest) (by omega)
      have others := @takeMembers_tokens members fuel rest (by omega)
      simp only [memberTokens, List.cons_append, List.append_assoc, takeMembers, first, others,
        Option.map_some]

end

theorem takeValue_tokens (value : Json) (rest : List JsonToken) :
    takeValue (value.tokens ++ rest) = some (value, rest) :=
  takeWithin_tokens value rest (by rw [List.length_append]; omega)

/-! ## Stepping over a value -/

/-- Read on until as many arrays and objects have ended as were begun. -/
def skipDepth : ℕ → List JsonToken → Option (List JsonToken)
  | 0, stream => some stream
  | _ + 1, [] => none
  | depth + 1, token :: rest =>
    match token with
    | .beginArray | .beginObject => skipDepth (depth + 2) rest
    | .endArray | .endObject => skipDepth depth rest
    | .fault => none
    | _ => skipDepth (depth + 1) rest

/-- Step over one value. -/
def skipValue : List JsonToken → Option (List JsonToken)
  | [] => none
  | .fault :: _ => none
  | .beginArray :: rest | .beginObject :: rest => skipDepth 1 rest
  | _ :: rest => some rest

theorem skipDepth_length : ∀ {stream : List JsonToken} {depth : ℕ} {rest : List JsonToken},
    skipDepth depth stream = some rest → rest.length ≤ stream.length
  | _, 0, _, skipped => by
      rw [skipDepth, Option.some.injEq] at skipped
      exact Nat.le_of_eq (congrArg List.length skipped.symm)
  | [], depth + 1, _, skipped => by simp [skipDepth] at skipped
  | token :: stream, depth + 1, rest, skipped => by
      rw [List.length_cons]
      cases token with
      | fault => simp [skipDepth] at skipped
      | beginArray | beginObject | endArray | endObject | null | bool | number | string =>
          exact Nat.le_succ_of_le (skipDepth_length skipped)

theorem skipValue_length {stream rest : List JsonToken} (skipped : skipValue stream = some rest) :
    rest.length < stream.length := by
  cases stream with
  | nil => simp [skipValue] at skipped
  | cons token stream =>
      rw [List.length_cons, Nat.lt_succ_iff]
      cases token with
      | fault => simp [skipValue] at skipped
      | beginArray | beginObject => exact skipDepth_length skipped
      | endArray | endObject | null | bool | number | string =>
          simp only [skipValue, Option.some.injEq] at skipped
          exact Nat.le_of_eq (congrArg List.length skipped.symm)

mutual

/-- Inside a value that is stepped over, a whole value changes nothing. -/
theorem skipDepth_tokens : ∀ (value : Json) (depth : ℕ) (rest : List JsonToken),
    skipDepth (depth + 1) (value.tokens ++ rest) = skipDepth (depth + 1) rest
  | .null, _, _ | .bool _, _, _ | .number _, _, _ | .string _, _, _ => rfl
  | .array elements, depth, rest => by
      simp only [tokens, List.cons_append, List.append_assoc, List.nil_append]
      rw [skipDepth, skipDepth_elementTokens elements, skipDepth]
  | .object members, depth, rest => by
      simp only [tokens, List.cons_append, List.append_assoc, List.nil_append]
      rw [skipDepth, skipDepth_memberTokens members, skipDepth]

theorem skipDepth_elementTokens : ∀ (elements : List Json) (depth : ℕ) (rest : List JsonToken),
    skipDepth (depth + 1) (elementTokens elements ++ rest) = skipDepth (depth + 1) rest
  | [], _, _ => rfl
  | value :: elements, depth, rest => by
      rw [elementTokens, List.append_assoc, skipDepth_tokens value,
        skipDepth_elementTokens elements]

theorem skipDepth_memberTokens : ∀ (members : List (String × Json)) (depth : ℕ)
    (rest : List JsonToken),
    skipDepth (depth + 1) (memberTokens members ++ rest) = skipDepth (depth + 1) rest
  | [], _, _ => rfl
  | (key, value) :: members, depth, rest => by
      rw [memberTokens, List.cons_append, List.append_assoc, skipDepth, skipDepth_tokens value,
        skipDepth_memberTokens members]
      all_goals simp

end

/-- **Exactly one value is stepped over.** -/
theorem skipValue_tokens (value : Json) (rest : List JsonToken) :
    skipValue (value.tokens ++ rest) = some rest := by
  cases value with
  | null | bool | number | string => rfl
  | array elements =>
      simp only [tokens, List.cons_append, List.append_assoc, List.nil_append, skipValue]
      rw [skipDepth_elementTokens elements, skipDepth, skipDepth]
  | object members =>
      simp only [tokens, List.cons_append, List.append_assoc, List.nil_append, skipValue]
      rw [skipDepth_memberTokens members, skipDepth, skipDepth]

/-! ## Going through an array -/

/-- Whether the array or object that is being read has another element. -/
def more : List JsonToken → Bool
  | [] | .endArray :: _ | .endObject :: _ => false
  | _ => true

variable {σ ε : Type*} (add : σ → Json → Except ε σ) (syntaxError : ε)

/-- Add the elements of an array one by one, up to the end of the array. -/
def streamElements (state : σ) (stream : List JsonToken) : Except ε (σ × List JsonToken) :=
  if more stream then
    match _ : takeValue stream with
    | none => .error syntaxError
    | some (value, rest) =>
      match add state value with
      | .error e => .error e
      | .ok state => streamElements state rest
  else .ok (state, stream)
termination_by stream.length
decreasing_by exact takeValue_length ‹_›

theorem more_tokens (value : Json) (rest : List JsonToken) :
    more (value.tokens ++ rest) = true := by
  cases value <;> rfl

theorem streamElements_length {state last : σ} {stream rest : List JsonToken}
    (read : streamElements add syntaxError state stream = .ok (last, rest)) :
    rest.length ≤ stream.length := by
  fun_induction streamElements add syntaxError state stream with
  | case1 => cases read
  | case2 => cases read
  | case3 state stream _ value left taken next _ ih =>
      have shorter := takeValue_length taken
      have bound := ih read
      omega
  | case4 =>
      cases read
      exact Nat.le_refl _

/-- **The elements of an array** are added in their order. -/
theorem streamElements_tokens : ∀ (elements : List Json) (state : σ) (rest : List JsonToken),
    streamElements add syntaxError state (elementTokens elements ++ .endArray :: rest) =
      (elements.foldlM add state).map fun last => (last, .endArray :: rest)
  | [], state, rest => by
      rw [elementTokens, List.nil_append, streamElements, if_neg (by simp [more])]
      rfl
  | value :: elements, state, rest => by
      rw [elementTokens, List.append_assoc, streamElements, if_pos (more_tokens ..)]
      split
      · next taken =>
          rw [takeValue_tokens] at taken
          cases taken
      · next taken =>
          rw [takeValue_tokens, Option.some.injEq, Prod.mk.injEq] at taken
          obtain ⟨rfl, rfl⟩ := taken
          rw [List.foldlM_cons]
          cases add state value with
          | error e => rfl
          | ok next => exact streamElements_tokens elements next rest

end Json
end OsmMini.Foundations
