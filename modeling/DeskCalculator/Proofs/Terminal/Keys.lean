import DeskCalculator.Proofs.Number.Cursor
import DeskCalculator.Proofs.Terminal.Lines

/-! The keys of any line. They are those of its words, one word after the other, and a word is read on its own: as a
command with a name, the case of whose letters does not matter, or character by character. -/
namespace DeskCalculator

namespace Text

/-- Do two texts differ in the case of letters alone, if at all? -/
def Recased (cs ds : List Char) : Prop := List.Forall₂ (fun c d => d = c ∨ d = c.toLower ∨ d = c.toUpper) cs ds

theorem Recased.map_toLower {cs ds : List Char} (h : Recased cs ds) : ds.map Char.toLower = cs.map Char.toLower := by
  induction h with
  | nil => rfl
  | cons hc _ ih =>
    rw [List.map_cons, List.map_cons, ih]
    rcases hc with rfl | rfl | rfl <;> simp

theorem forall_upper {P : Char → Prop} (h : ∀ k : Fin 26, P (Char.ofNat (65 + k))) {c : Char}
    (hc : c.isUpper = true) : P c := by
  simp only [Char.isUpper, decide_eq_true_eq] at hc
  have hlower : 65 ≤ c.toNat := hc.1
  have hupper : c.toNat ≤ 90 := hc.2
  have hletter := h ⟨c.toNat - 65, by omega⟩
  rwa [Nat.add_sub_cancel' hlower, Char.ofNat_toNat] at hletter

theorem utf8Size_toLower (c : Char) : c.toLower.utf8Size = c.utf8Size := by
  by_cases hc : c.isUpper = true
  · exact forall_upper (P := fun c => c.toLower.utf8Size = c.utf8Size) (by decide) hc
  · rw [Char.toLower_eq_of_not_isUpper hc]

theorem bne_toLower (c : Char) : (c.toLower != '=') = (c != '=') := by
  by_cases hc : c.isUpper = true
  · exact forall_upper (P := fun c => (c.toLower != '=') = (c != '=')) (by decide) hc
  · rw [Char.toLower_eq_of_not_isUpper hc]

theorem bytes_map_toLower (cs : List Char) : bytes (cs.map Char.toLower) = bytes cs := by
  induction cs with
  | nil => rfl
  | cons c cs ih => rw [List.map_cons, bytes, bytes, utf8Size_toLower, ih]

theorem bytes_append (front back : List Char) : bytes (front ++ back) = bytes front + bytes back := by
  induction front with
  | nil => simp [bytes]
  | cons c front ih => rw [List.cons_append, bytes, bytes, ih, Nat.add_assoc]

theorem mem_map_toLower {cs : List Char} : '=' ∈ cs.map Char.toLower ↔ '=' ∈ cs := by
  have hchar (c : Char) : c.toLower = '=' ↔ c = '=' := by
    simpa [bne_eq_false_iff_eq] using congrArg (· = false) (bne_toLower c)
  simp [hchar]

theorem toLower_ofList (cs : List Char) : (String.ofList cs).toLower = String.ofList (cs.map Char.toLower) := by
  rw [← String.toList_inj, String.toLower, String.toList_map, String.toList_ofList, String.toList_ofList]

end Text

namespace Key
open Text

/-! ### Lines -/

theorem ofLine_eq (line : String) : ofLine line = ((words line.toList).mapM ofWord).map List.flatten := rfl

section Words
variable {line : String} {ws : List (List Char)}

theorem ofLine_of_hasWords (h : HasWords line.toList ws) : ofLine line = (ws.mapM ofWord).map List.flatten := by
  rw [ofLine_eq, h.words_eq]

theorem ofLine_eq_ok {keys : List Key} (h : HasWords line.toList ws) : ofLine line = .ok keys ↔
    ∃ parts, List.Forall₂ (fun word part => ofWord word = .ok part) ws parts ∧ parts.flatten = keys := by
  rw [ofLine_of_hasWords h, Outcome.map_eq_ok]
  simp only [Outcome.mapM_eq_ok]

theorem ofLine_eq_error {fault : Fault} (h : HasWords line.toList ws) :
    ofLine line = .error fault ↔ Outcome.FirstFails ofWord ws fault := by
  rw [ofLine_of_hasWords h, Outcome.map_eq_error, Outcome.mapM_eq_error]

end Words

theorem ofLine_append (l₁ l₂ : String) : ofLine (l₁ ++ " " ++ l₂) =
    match ofLine l₁, ofLine l₂ with
    | .ok k₁, .ok k₂ => .ok (k₁ ++ k₂)
    | .error fault, _ => .error fault
    | .ok _, .error fault => .error fault := by
  have hline : (l₁ ++ " " ++ l₂).toList = l₁.toList ++ ' ' :: l₂.toList := by simp
  have hblank : isBlank ' ' = true := by decide
  rw [ofLine_eq, ofLine_eq, ofLine_eq, hline, words_append_blank _ _ hblank, List.mapM_append]
  cases (words l₁.toList).mapM ofWord with
  | error fault => rfl
  | ok kss₁ =>
    cases (words l₂.toList).mapM ofWord with
    | error fault => rfl
    | ok kss₂ => exact congrArg Except.ok List.flatten_append

/-! ### Words of characters -/

theorem ofWord_eq_ok {word : List Char} (hword : word.head? ≠ some ':') {keys : List Key} :
    ofWord word = .ok keys ↔ List.Forall₂ (fun c key => ∃ i, ofChar c = .ok i ∧ input i = key) word keys := by
  rw [ofWord_of_ne hword, Outcome.mapM_eq_ok]
  simp only [Outcome.map_eq_ok]

theorem ofWord_eq_error {word : List Char} (hword : word.head? ≠ some ':') {fault : Fault} :
    ofWord word = .error fault ↔ Outcome.FirstFails ofChar word fault := by
  rw [ofWord_of_ne hword, Outcome.mapM_eq_error, Outcome.firstFails_map]

/-! ### Commands -/

theorem ofWord_command (command : List Char) : ofWord (':' :: command) = (ofCommand command).map fun key => [key] := rfl

/-- A name ends at the first `=`. -/
theorem cut_at_equals {name : List Char} (hname : '=' ∉ name) (rest : List Char) (hrest : ∀ c ∈ rest.head?, c = '=') :
    (name ++ rest).takeWhile (· != '=') = name ∧ (name ++ rest).dropWhile (· != '=') = rest := by
  refine takeRun (fun c hc => bne_iff_ne.mpr fun heq => hname (heq ▸ hc)) fun c hc => ?_
  rw [hrest c hc]
  rfl

theorem ofCommand_plain {name : List Char} (hname : '=' ∉ name) :
    ofCommand name = orUnknown name (ofName? (String.ofList (name.map Char.toLower))) := by
  obtain ⟨htaken, hleft⟩ := cut_at_equals hname [] (by simp)
  rw [List.append_nil] at htaken hleft
  rw [ofCommand, htaken, hleft, toLower_ofList]

theorem ofCommand_field {name : List Char} (hname : '=' ∉ name) (value : List Char) :
    ofCommand (name ++ '=' :: value) = orUnknown (name ++ '=' :: value)
      ((ofField? (String.ofList (name.map Char.toLower)) (String.ofList value)).map input) := by
  obtain ⟨htaken, hleft⟩ := cut_at_equals hname ('=' :: value) (by simp)
  rw [ofCommand, htaken, hleft, toLower_ofList]

/-- A command is a name alone, or a name and a value. -/
theorem command_cases (command : List Char) :
    '=' ∉ command ∨ ∃ name value, command = name ++ '=' :: value ∧ '=' ∉ name := by
  by_cases h : '=' ∈ command
  · exact Or.inr (List.eq_append_cons_of_mem h)
  · exact Or.inl h

/-- The case of the letters in a name is no matter for the key. -/
theorem toOption_ofCommand_recased {name name' rest : List Char} (h : Recased name name') (hname : '=' ∉ name)
    (hrest : ∀ c ∈ rest.head?, c = '=') :
    (ofCommand (name' ++ rest)).toOption = (ofCommand (name ++ rest)).toOption := by
  have hname' : '=' ∉ name' := by
    rw [← mem_map_toLower, h.map_toLower, mem_map_toLower]
    exact hname
  have hkey (command command' : List Char) (key? : Option Key) :
      (orUnknown command key?).toOption = (orUnknown command' key?).toOption := by
    cases key? <;> rfl
  cases rest with
  | nil =>
    rw [List.append_nil, List.append_nil, ofCommand_plain hname, ofCommand_plain hname', h.map_toLower]
    exact hkey ..
  | cons c value =>
    obtain rfl : c = '=' := hrest c rfl
    rw [ofCommand_field hname, ofCommand_field hname', h.map_toLower]
    exact hkey ..

/-- The names of the fields, with what is done with their values. -/
def fields : List (String × (String → Input)) :=
  [("start", Input.setStart), ("end", Input.setEnd), ("birth", Input.setBirth)]

theorem ofCommand_of_field {field : String × (String → Input)} (hfield : field ∈ fields) {name : List Char}
    (h : Recased field.1.toList name) (value : List Char) :
    ofCommand (name ++ '=' :: value) = .ok (input (field.2 (String.ofList value))) := by
  have hlower : ∀ field ∈ fields, field.1.toList.map Char.toLower = field.1.toList ∧ '=' ∉ field.1.toList := by
    simp only [fields, List.forall_mem_cons]
    decide
  have hmake : ∀ field ∈ fields, ∀ value, ofField? field.1 value = some (field.2 value) := by
    simp only [fields, List.forall_mem_cons]
    exact ⟨fun _ => rfl, fun _ => rfl, fun _ => rfl, by simp⟩
  obtain ⟨hsame, hplain⟩ := hlower field hfield
  have hname : '=' ∉ name := by
    rw [← mem_map_toLower, h.map_toLower, hsame]
    exact hplain
  rw [ofCommand_field hname, h.map_toLower, hsame, String.ofList_toList, hmake field hfield]
  rfl

theorem byBytes?_eq (command : List Char) : byBytes? command = some (ofCommand command) := by
  rcases command_cases command with hplain | ⟨name, value, rfl, hname⟩
  · rw [byBytes?, if_neg (mt mem_map_toLower.mp hplain), ofCommand_plain hplain]
  · have hmem : '=' ∈ (name ++ '=' :: value).map Char.toLower := mem_map_toLower.mpr (by simp)
    have hlower : '=' ∉ name.map Char.toLower := mt mem_map_toLower.mp hname
    have hequals : '='.toLower = '=' := by decide
    obtain ⟨htaken, -⟩ := cut_at_equals hlower ('=' :: value.map Char.toLower) (by simp)
    -- the name is measured in small letters and cut off as it was typed, and both have as many bytes
    have hcut : cutAt? (bytes (name.map Char.toLower) + 1) (name ++ '=' :: value) = some (name ++ ['='], value) := by
      have hsize : '='.utf8Size = 1 := by decide
      have hbytes : bytes (name ++ ['=']) = bytes (name.map Char.toLower) + 1 := by
        rw [bytes_append, bytes_map_toLower, bytes, bytes, hsize]
      have hfront := cutAt?_bytes (name ++ ['=']) value
      rwa [hbytes, List.append_assoc] at hfront
    rw [byBytes?, if_pos hmem, List.map_append, List.map_cons, hequals, htaken]
    dsimp only
    rw [hcut, ofCommand_field hname]
    rfl

end Key

open Key Text in
/-- The keys of two lines with a blank between them are those of the one and of the other, and the first line that
cannot be read says why. A line is its words: it has the keys of these if all of them can be read, and otherwise the
fault of the first one that cannot. A word without a colon in front is read character by character in the same way, each
on its own. The letters of a command's name may have either case, and the value of a field is what stands after the
first `=`, as it would be cut out of the bytes. -/
theorem keys_are_read_word_by_word :
    (∀ l₁ l₂ : String, ofLine (l₁ ++ " " ++ l₂) =
      match ofLine l₁, ofLine l₂ with
      | .ok k₁, .ok k₂ => .ok (k₁ ++ k₂)
      | .error fault, _ => .error fault
      | .ok _, .error fault => .error fault) ∧
    (∀ line : String, ∃! ws, HasWords line.toList ws) ∧
    (∀ (line line' : String) ws, HasWords line.toList ws → HasWords line'.toList ws → ofLine line = ofLine line') ∧
    (∀ (line : String) ws, HasWords line.toList ws →
      (∀ keys, ofLine line = .ok keys ↔
        ∃ parts, List.Forall₂ (fun word part => ofWord word = .ok part) ws parts ∧ parts.flatten = keys) ∧
      ∀ fault, ofLine line = .error fault ↔ Outcome.FirstFails ofWord ws fault) ∧
    (∀ word, word.head? ≠ some ':' →
      (∀ keys, ofWord word = .ok keys ↔
        List.Forall₂ (fun c key => ∃ i, ofChar c = .ok i ∧ input i = key) word keys) ∧
      ∀ fault, ofWord word = .error fault ↔ Outcome.FirstFails ofChar word fault) ∧
    (∀ name name' rest, Recased name name' → '=' ∉ name → (∀ c ∈ rest.head?, c = '=') →
      (ofWord (':' :: (name' ++ rest))).toOption = (ofWord (':' :: (name ++ rest))).toOption) ∧
    (∀ field ∈ fields, ∀ name value, Recased field.1.toList name →
      ofWord (':' :: (name ++ '=' :: value)) = .ok [input (field.2 (String.ofList value))]) ∧
    (∀ command, byBytes? command = some (ofCommand command)) := by
  refine ⟨ofLine_append, fun line => ⟨_, hasWords_words _, fun ws h => h.words_eq.symm⟩, fun line line' ws h h' => ?_,
    fun line ws h => ⟨fun keys => ofLine_eq_ok h, fun fault => ofLine_eq_error h⟩,
    fun word hword => ⟨fun keys => ofWord_eq_ok hword, fun fault => ofWord_eq_error hword⟩,
    fun name name' rest h hname hrest => ?_, fun field hfield name value h => ?_, byBytes?_eq⟩
  · rw [ofLine_of_hasWords h, ofLine_of_hasWords h']
  · -- a command that is no key is reported as it was typed, so that only what is read is the same
    have hkey := toOption_ofCommand_recased h hname hrest
    have hmap (x : Except Fault Key) : (x.map fun key => [key]).toOption = x.toOption.map fun key => [key] := by
      cases x <;> rfl
    rw [ofWord_command, ofWord_command, hmap, hmap, hkey]
  · rw [ofWord_command, ofCommand_of_field hfield h]
    rfl

open Key in
/-- A digit, and a date of birth with a name that is not in small letters and a value that has a `=` in it. -/
theorem digit_and_birth_are_read :
    ofLine ("7" ++ " " ++ ":Birth=2000-06-15=A") = .ok [input (.digit '7'), input (.setBirth "2000-06-15=A")] := by
  have happend := keys_are_read_word_by_word.1 "7" ":Birth=2000-06-15=A"
  have hdigit : ofLine "7" = .ok [input (.digit '7')] := by decide +kernel
  have hbirth : ofLine ":Birth=2000-06-15=A" = .ok [input (.setBirth "2000-06-15=A")] := by decide +kernel
  rw [happend, hdigit, hbirth]
  rfl

end DeskCalculator
