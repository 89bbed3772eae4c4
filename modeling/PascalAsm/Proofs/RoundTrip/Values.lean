import PascalAsm.Proofs.RoundTrip.Tokens

/-!
# JSON values that are read back

The tokens of a value are read as that value wherever a value may stand. `Json.parse?_render` puts
this together with the scanning of its text: what is written is read, whatever the strings in it
contain and however deep it nests.
-/

namespace PascalAsm

namespace Json

namespace Reader

theorem run_singleton (r : Reader) (t : Token) : r.run [t] = r.step t := by
  rw [run]
  cases r.step t <;> rfl

theorem run_cons {r q : Reader} {t : Token} (h : r.step t = some q) (ts : List Token) :
    r.run (t :: ts) = q.run ts := by
  rw [run, h]

/-- What is read in two parts. The first part has to be without an error, since a reader stops at
one. -/
theorem run_append_of_some {r q : Reader} {ts : List Token} (h : r.run ts = some q) (us : List Token) :
    r.run (ts ++ us) = q.run us := by
  rw [run_append, h, Option.bind_some]

/-- The first item of an array is read as any other. Only there may an array end without an item. -/
theorem step_first {items : List Json} {outer : List Container} {t : Token} (h : t ≠ .endArray) :
    (within (.array items :: outer) .first).step t =
      (within (.array items :: outer) .value).step t := by
  cases t with
  | endArray => exact absurd rfl h
  | _ => rfl

/-- The end of an array is the value that it makes. It is added to what is around the array. -/
theorem step_endArray (items : List Json) (outer : List Container) (phase : Phase)
    (h : phase = .first ∨ phase = .more) :
    (within (.array items :: outer) phase).step .endArray = supply (.array items.reverse) outer := by
  have hclose : close (.array items :: outer) .endArray = supply (.array items.reverse) outer := rfl
  rcases h with rfl | rfl
  · simp only [step, hclose]
    cases supply (.array items.reverse) outer <;> rfl
  · rfl

/-- The end of an object is the value that it makes. It is added to what is around the object. -/
theorem step_endObject (members : List (Option String × Json)) (outer : List Container) (phase : Phase)
    (h : phase = .first ∨ phase = .more) :
    (within (.object members :: outer) phase).step .endObject =
      supply (.object members.reverse) outer := by
  have hclose : close (.object members :: outer) .endObject =
      supply (.object members.reverse) outer := rfl
  rcases h with rfl | rfl
  · simp only [step, hclose]
    cases supply (.object members.reverse) outer <;> rfl
  · rfl

end Reader

open Reader

/-- No value begins as an array ends. So a value after the opening bracket is the first item, by
`step_first`. -/
theorem tokens_ne_endArray (v : Json) : ∃ t ts, v.tokens = t :: ts ∧ t ≠ .endArray := by
  cases v with
  | array items => cases items <;> exact ⟨_, _, rfl, by simp⟩
  | object members =>
    cases members with
    | nil => exact ⟨_, _, rfl, by simp⟩
    | cons member rest => exact ⟨_, _, rfl, by simp⟩
  | _ => exact ⟨_, _, rfl, by simp⟩

mutual

/-- Where a value may stand, its tokens are read as the value. By recursion over the value, together
with its items and members. -/
theorem run_tokens : ∀ (v : Json) (containers : List Container),
    (within containers .value).run v.tokens = supply v containers
  | null, _ | bool _, _ | number _, _ | string _, _ => run_singleton _ _
  | array [], containers => by
    rw [tokens, run_cons rfl, run_singleton, step_endArray _ _ _ (.inl rfl)]
    rfl
  | array (item :: rest), containers => by
    have hitem : (within (.array [] :: containers) .first).run item.tokens =
        some (within (.array [item] :: containers) .more) := by
      -- the array might end here instead, but no item begins in that way
      obtain ⟨t, ts, htokens, ht⟩ := item.tokens_ne_endArray
      have hrun := run_tokens item (.array [] :: containers)
      rw [htokens, run] at hrun ⊢
      rw [step_first ht, hrun]
      rfl
    rw [tokens, run_cons rfl, run_append_of_some hitem, run_append_of_some (run_tokensOfItems rest _ _),
      run_singleton, step_endArray _ _ _ (.inr rfl), List.reverse_append, List.reverse_reverse]
    rfl
  | object [], containers => by
    rw [tokens, run_cons rfl, run_singleton, step_endObject _ _ _ (.inl rfl)]
    rfl
  | object ((name, value) :: rest), containers => by
    have hvalue := run_tokens value (.member [] name :: containers)
    rw [tokens, run_cons rfl, run_cons rfl, run_cons rfl, run_append_of_some hvalue,
      run_append_of_some (run_tokensOfMembers rest _ _), run_singleton, step_endObject _ _ _ (.inr rfl),
      List.reverse_append, List.reverse_reverse]
    rfl

/-- Further items are added to those that an array has. They are kept last first until the array
ends. -/
theorem run_tokensOfItems : ∀ (rest items : List Json) (outer : List Container),
    (within (.array items :: outer) .more).run (tokensOfItems rest) =
      some (within (.array (rest.reverse ++ items) :: outer) .more)
  | [], _, _ => rfl
  | item :: rest, items, outer => by
    have hitem := run_tokens item (.array items :: outer)
    rw [tokensOfItems, run_cons rfl, run_append_of_some hitem, run_tokensOfItems rest, List.reverse_cons,
      List.append_assoc, List.singleton_append]

/-- Further members are added to those that an object has. They are kept last first until the object
ends. -/
theorem run_tokensOfMembers : ∀ (rest members : List (Option String × Json)) (outer : List Container),
    (within (.object members :: outer) .more).run (tokensOfMembers rest) =
      some (within (.object (rest.reverse ++ members) :: outer) .more)
  | [], _, _ => rfl
  | (name, value) :: rest, members, outer => by
    have hvalue := run_tokens value (.member members name :: outer)
    rw [tokensOfMembers, run_cons rfl, run_cons rfl, run_cons rfl, run_append_of_some hvalue,
      run_tokensOfMembers rest, List.reverse_cons, List.append_assoc, List.singleton_append]

end

/-- **What is written is read.** The text of a value is one JSON value, and it is that value, if the
numbers in it are spelled as numerals. -/
theorem parse?_render {v : Json} (h : v.Spelled) : parse? v.render = some v := by
  have hread : ofTokens? v.tokens = some v := by
    rw [ofTokens?, Reader.start, run_tokens v []]
    rfl
  rw [parse?, scan_render h]
  exact hread

end Json

end PascalAsm
