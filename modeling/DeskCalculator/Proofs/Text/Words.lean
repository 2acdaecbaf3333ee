import DeskCalculator.Proofs.Text.Digits
import Mathlib.Data.List.TakeWhile

/-! The words of a text: a text without blanks is one word, and a blank parts the words before it from those
after it. -/
namespace DeskCalculator.Text

/-- The words of a text, with the one that it starts with, if it starts with one. -/
def allWords : List Char × List (List Char) → List (List Char)
  | (word, rest) => if word = [] then rest else word :: rest

theorem words_eq (cs : List Char) : words cs = allWords (cs.foldr takeIntoWords ([], [])) := by
  unfold words
  rcases cs.foldr takeIntoWords ([], []) with ⟨word, rest⟩
  cases word <;> rfl

theorem takeIntoWords_blank {c : Char} (hc : isBlank c = true) (taken : List Char × List (List Char)) :
    takeIntoWords c taken = ([], allWords taken) := by
  rw [takeIntoWords, if_pos hc, allWords]

theorem takeIntoWords_plain {c : Char} (hc : isBlank c = false) (word : List Char) (rest : List (List Char)) :
    takeIntoWords c (word, rest) = (c :: word, rest) := by
  rw [takeIntoWords, if_neg (by simp [hc])]

theorem allWords_append (word : List Char) (rest later : List (List Char)) :
    allWords (word, rest ++ later) = allWords (word, rest) ++ later := by
  by_cases hword : word = [] <;> simp [allWords, hword]

/-- What was taken before stays behind what a text adds to it. -/
theorem foldr_takeIntoWords (cs : List Char) (later : List (List Char)) :
    cs.foldr takeIntoWords ([], later)
      = ((cs.foldr takeIntoWords ([], [])).1, (cs.foldr takeIntoWords ([], [])).2 ++ later) := by
  induction cs with
  | nil => rfl
  | cons c cs ih =>
    rw [List.foldr_cons, List.foldr_cons, ih]
    rcases cs.foldr takeIntoWords ([], []) with ⟨word, rest⟩
    cases hc : isBlank c with
    | true => rw [takeIntoWords_blank hc, takeIntoWords_blank hc, allWords_append]
    | false => rw [takeIntoWords_plain hc, takeIntoWords_plain hc]

theorem words_append_blank (cs ds : List Char) {b : Char} (hb : isBlank b = true) :
    words (cs ++ b :: ds) = words cs ++ words ds := by
  rw [words_eq, words_eq, words_eq, List.foldr_append, List.foldr_cons, takeIntoWords_blank hb,
    foldr_takeIntoWords, allWords_append]

theorem words_eq_singleton {cs : List Char} (hne : cs ≠ []) (hcs : ∀ c ∈ cs, isBlank c = false) :
    words cs = [cs] := by
  -- Without a blank the first word is never closed.
  have hfold : cs.foldr takeIntoWords ([], []) = (cs, []) := by
    clear hne
    induction cs with
    | nil => rfl
    | cons c cs ih =>
      obtain ⟨hc, hrest⟩ := List.forall_mem_cons.mp hcs
      rw [List.foldr_cons, ih hrest, takeIntoWords_plain hc]
  rw [words_eq, hfold, allWords, if_neg hne]

/-- The words of a text, as runs: blanks part them, and each goes on up to a blank or the end. -/
inductive HasWords : List Char → List (List Char) → Prop
  | nil : HasWords [] []
  | blank {b : Char} {cs : List Char} {ws : List (List Char)} (hb : isBlank b = true) (h : HasWords cs ws) :
      HasWords (b :: cs) ws
  | word {word rest : List Char} {ws : List (List Char)} (hne : word ≠ [])
      (hplain : ∀ c ∈ word, isBlank c = false) (hends : ∀ c ∈ rest.head?, isBlank c = true) (h : HasWords rest ws) :
      HasWords (word ++ rest) (word :: ws)

theorem words_blank {b : Char} (hb : isBlank b = true) (cs : List Char) : words (b :: cs) = words cs :=
  words_append_blank [] cs hb

theorem HasWords.words_eq {cs : List Char} {ws : List (List Char)} (h : HasWords cs ws) : words cs = ws := by
  induction h with
  | nil => rfl
  | blank hb _ ih => rw [words_blank hb, ih]
  | @word word rest ws hne hplain hends _ ih =>
    cases rest with
    | nil =>
      obtain rfl : [] = ws := ih
      rw [List.append_nil, words_eq_singleton hne hplain]
    | cons b rest =>
      have hb : isBlank b = true := hends b rfl
      rw [words_append_blank word rest hb, words_eq_singleton hne hplain, ← words_blank hb, ih]
      rfl

/-- Every text has words. The induction is on its length: a blank is left out, and a word is taken off as a whole. -/
theorem hasWords_words (cs : List Char) : HasWords cs (words cs) := by
  have hexists : ∃ ws, HasWords cs ws := by
    induction hlength : cs.length using Nat.strong_induction_on generalizing cs with
    | h n ih =>
      cases cs with
      | nil => exact ⟨[], .nil⟩
      | cons c cs =>
        cases hc : isBlank c with
        | true =>
          obtain ⟨ws, hws⟩ := ih cs.length (by rw [← hlength]; exact Nat.lt_succ_self _) cs rfl
          exact ⟨ws, .blank hc hws⟩
        | false =>
          have hshorter : (cs.dropWhile (!isBlank ·)).length < n := by
            rw [← hlength]
            exact Nat.lt_succ_of_le (List.length_dropWhile_le ..)
          obtain ⟨ws, hws⟩ := ih _ hshorter _ rfl
          have hplain : ∀ d ∈ c :: cs.takeWhile (!isBlank ·), isBlank d = false :=
            List.forall_mem_cons.mpr ⟨hc, fun d hd => by simpa using List.mem_takeWhile_imp hd⟩
          have hends : ∀ d ∈ (cs.dropWhile (!isBlank ·)).head?, isBlank d = true := fun d hd => by
            simpa using dropWhile_ends (!isBlank ·) cs d hd
          have hword := HasWords.word (List.cons_ne_nil c _) hplain hends hws
          rw [List.cons_append, List.takeWhile_append_dropWhile] at hword
          exact ⟨_, hword⟩
  obtain ⟨ws, hws⟩ := hexists
  rwa [hws.words_eq]

end DeskCalculator.Text
