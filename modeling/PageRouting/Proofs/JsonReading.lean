import PageRouting.Proofs.JsonTokens

/-!
# `PageRouting/Proofs/JsonReading.lean` — the value of a JSON text

The second pass over a JSON text puts its tokens together. It keeps the lists and objects that are open, each with what is complete
in it, and a token says what to do next: begin a value, end one, or go on with the container around it (`Json.State.next`).

Reading gives back what was written, in either character set and with blanks behind it (`Json.read_render`). The tokens of a value
take the machine from where a value is expected to where that value stands complete in the same containers, whichever these are.
-/

set_option autoImplicit false

namespace PageRouting.Json

/-! ## Putting tokens together -/

/-- A list or an object that is open, with what is complete in it. -/
inductive Frame where
  | list (before : List Json)
  /-- the last key, whose value is still to come -/
  | object (before : List (Text × Json)) (key : Text)

/-- How far reading has come; the innermost open container comes first. -/
inductive State where
  /-- a value has to come -/
  | valueNext (frames : List Frame)
  /-- a list has just been opened -/
  | firstItem (frames : List Frame)
  /-- an object has just been opened -/
  | firstKey (frames : List Frame)
  /-- another key has to come -/
  | keyNext (before : List (Text × Json)) (frames : List Frame)
  /-- a colon has to come -/
  | colonNext (before : List (Text × Json)) (key : Text) (frames : List Frame)
  /-- a value is complete -/
  | complete (value : Json) (frames : List Frame)

namespace State

/-- A value begins. -/
def enter (frames : List Frame) : Token → Option State
  | .text value => some (.complete (.str value) frames)
  | .word value => some (.complete value frames)
  | .openList => some (.firstItem frames)
  | .openObject => some (.firstKey frames)
  | _ => none

/-- What the next token does, if it may stand here. -/
def next : State → Token → Option State
  | .valueNext frames, token => enter frames token
  | .firstItem frames, .closeList => some (.complete (.arr []) frames)
  | .firstItem frames, token => enter (.list [] :: frames) token
  | .firstKey frames, .closeObject => some (.complete (.obj []) frames)
  | .firstKey frames, .text key => some (.colonNext [] key frames)
  | .keyNext before frames, .text key => some (.colonNext before key frames)
  | .colonNext before key frames, .colon => some (.valueNext (.object before key :: frames))
  | .complete value (.list before :: frames), .comma => some (.valueNext (.list (before ++ [value]) :: frames))
  | .complete value (.list before :: frames), .closeList => some (.complete (.arr (before ++ [value])) frames)
  | .complete value (.object before key :: frames), .comma => some (.keyNext (before ++ [(key, value)]) frames)
  | .complete value (.object before key :: frames), .closeObject =>
    some (.complete (.obj (before ++ [(key, value)])) frames)
  | _, _ => none

/-- The value that has been read, if nothing is open. -/
def value? : State → Option Json
  | .complete value [] => some value
  | _ => none

end State

/-- The value of a JSON text. -/
def read (text : Text) : Option Json :=
  (scan .nothing text).bind fun tokens => (tokens.foldlM State.next (.valueNext [])).bind State.value?

/-! ## The tokens of a value make that value -/

/-- The tokens lead from one state to another. -/
def Leads (tokens : List Token) (start finish : State) : Prop :=
  tokens.foldlM State.next start = some finish

theorem Leads.append {tokens others : List Token} {start middle finish : State} (h : Leads tokens start middle)
    (ho : Leads others middle finish) : Leads (tokens ++ others) start finish := by
  rw [Leads, List.foldlM_append, h]
  exact ho

theorem Leads.cons {token : Token} {tokens : List Token} {start middle finish : State} (h : start.next token = some middle)
    (ho : Leads tokens middle finish) : Leads (token :: tokens) start finish := by
  rw [Leads, List.foldlM_cons, h]
  exact ho

/-- Where a list has just been opened, a value may come as well as anywhere else. -/
theorem next_firstItem {token : Token} {frames : List Frame} {state : State}
    (h : State.enter (.list [] :: frames) token = some state) : (State.firstItem frames).next token = some state := by
  cases token with
  | closeList => cases h
  | _ => exact h

/-- A value begins with a token that enters it. -/
theorem exists_enter (value : Json) (frames : List Frame) :
    ∃ token rest state, tokens value = token :: rest ∧ State.enter frames token = some state := by
  cases value with
  | arr items => cases items <;> exact ⟨_, _, _, rfl, rfl⟩
  | obj fields => cases fields <;> exact ⟨_, _, _, rfl, rfl⟩
  | _ => exact ⟨_, _, _, rfl, rfl⟩

theorem Leads.firstItem {value : Json} {frames : List Frame} {finish : State}
    (h : Leads (tokens value) (.valueNext (.list [] :: frames)) finish) : Leads (tokens value) (.firstItem frames) finish := by
  obtain ⟨token, rest, state, htokens, henter⟩ := exists_enter value (.list [] :: frames)
  rw [htokens] at h ⊢
  have hnext : (State.valueNext (.list [] :: frames)).next token = some state := henter
  rw [Leads, List.foldlM_cons, hnext] at h
  exact .cons (next_firstItem henter) h

mutual

theorem leads_tokens (frames : List Frame) : ∀ value : Json, Leads (tokens value) (.valueNext frames) (.complete value frames)
  | .null => rfl
  | .bool _ => rfl
  | .num _ => rfl
  | .str _ => rfl
  | .arr [] => rfl
  | .arr (item :: items) => by
    have hitem := (leads_tokens (.list [] :: frames) item).firstItem
    have hlist := hitem.append (leads_itemTokens [] item frames items)
    rw [tokens, List.append_assoc]
    exact .cons rfl hlist
  | .obj [] => rfl
  | .obj ((key, value) :: fields) => by
    have hvalue := leads_tokens (.object [] key :: frames) value
    have hobject := hvalue.append (leads_otherTokens [] key value frames fields)
    rw [tokens, fieldTokens]
    simp only [List.cons_append, List.append_assoc]
    exact .cons rfl (.cons rfl (.cons rfl hobject))

/-- Items behind a complete one, and the end of their list. -/
theorem leads_itemTokens (before : List Json) (item : Json) (frames : List Frame) : ∀ items : List Json,
    Leads (itemTokens items ++ [.closeList]) (.complete item (.list before :: frames))
      (.complete (.arr (before ++ item :: items)) frames)
  | [] => rfl
  | next :: items => by
    have hnext := leads_tokens (.list (before ++ [item]) :: frames) next
    have hlist := hnext.append (leads_itemTokens (before ++ [item]) next frames items)
    rw [List.append_assoc, List.singleton_append] at hlist
    rw [itemTokens, List.cons_append, List.append_assoc]
    exact .cons rfl hlist

/-- Fields behind a complete one, and the end of their object. -/
theorem leads_otherTokens (before : List (Text × Json)) (key : Text) (value : Json) (frames : List Frame) :
    ∀ fields : List (Text × Json),
      Leads (otherTokens fields ++ [.closeObject]) (.complete value (.object before key :: frames))
        (.complete (.obj (before ++ (key, value) :: fields)) frames)
  | [] => rfl
  | (next, nextValue) :: fields => by
    have hnext := leads_tokens (.object (before ++ [(key, value)]) next :: frames) nextValue
    have hobject := hnext.append (leads_otherTokens (before ++ [(key, value)]) next nextValue frames fields)
    rw [List.append_assoc, List.singleton_append] at hobject
    rw [otherTokens, fieldTokens, List.cons_append, List.append_assoc]
    exact .cons rfl (.cons rfl (.cons rfl hobject))

end

/-- **What is rendered can be read.** -/
theorem read_render (charset : Charset) (value : Json) {gaps : Text} (h : ∀ c ∈ gaps, isGap c = true) :
    read (render charset value ++ gaps) = some value := by
  have hgaps : scan .nothing gaps = some [] := by
    have hpass := passes_gaps h []
    rwa [List.append_nil] at hpass
  have hends : Ends gaps := by
    intro c hc
    simp [isWordChar, h c (List.mem_of_mem_head? hc)]
  have hscan : scan .nothing (render charset value ++ gaps) = some (tokens value) := by
    rw [render, renderAt_yields charset 0 value gaps hends, hgaps]
    simp
  have hmade : (tokens value).foldlM State.next (.valueNext []) = some (.complete value []) := leads_tokens [] value
  rw [read, hscan, Option.bind_some, hmade]
  rfl

example : (read "[ \"\\/\\uD83D\\ude00\" ,-12]".toList).map (render .unicode) =
    some "[\n  \"/😀\",\n  -12\n]".toList := by decide +kernel

example : (read "[-12,]".toList).isNone := by decide +kernel

end PageRouting.Json
