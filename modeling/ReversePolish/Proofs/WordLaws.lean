import ReversePolish.Assembler

namespace ReversePolish

def AtBoundary : List Char → Prop
  | [] => True
  | c :: _ => isBlank c = true

/-- How a text falls into words. A word goes on for as long as no blank comes. -/
inductive Divides : List Char → List String → Prop
  | nil : Divides [] []
  | blank {c cs ws} : isBlank c = true → Divides cs ws → Divides (c :: cs) ws
  | word {run cs ws} : run ≠ [] → (∀ c ∈ run, isBlank c = false) → AtBoundary cs →
      Divides cs ws → Divides (run ++ cs) (String.ofList run :: ws)

def runs (text : List Char) : List (List Char) :=
  text.foldr
    (fun c runs =>
      if isBlank c then [] :: runs
      else
        match runs with
        | [] => [[c]]
        | run :: runs => (c :: run) :: runs)
    [[]]

def ofRuns (rs : List (List Char)) : List String :=
  (rs.filter (!·.isEmpty)).map String.ofList

theorem words_eq (text : String) : words text = ofRuns (runs text.toList) := rfl

theorem Divides.of_run {run cs : List Char} {rs : List (List Char)}
    (hrun : ∀ c ∈ run, isBlank c = false) (hcs : AtBoundary cs) (h : Divides cs (ofRuns rs)) :
    Divides (run ++ cs) (ofRuns (run :: rs)) := by
  cases run with
  | nil => exact h
  | cons c run => exact .word (by simp) hrun hcs h

theorem runs_spec (text : List Char) :
    ∃ run rs rest, runs text = run :: rs ∧ text = run ++ rest ∧ (∀ c ∈ run, isBlank c = false) ∧
      AtBoundary rest ∧ Divides rest (ofRuns rs) := by
  induction text with
  | nil => exact ⟨[], [], [], rfl, rfl, by simp, trivial, .nil⟩
  | cons c text ih =>
    obtain ⟨run, rs, rest, hruns, rfl, hrun, hrest, hdiv⟩ := ih
    match hc : isBlank c with
    | true =>
      refine ⟨[], run :: rs, c :: (run ++ rest), ?_, rfl, by simp, hc, ?_⟩
      · rw [runs, List.foldr_cons, if_pos hc]
        exact congrArg _ hruns
      · exact .blank hc (.of_run hrun hrest hdiv)
    | false =>
      refine ⟨c :: run, rs, rest, ?_, rfl, ?_, hrest, hdiv⟩
      · rw [runs, List.foldr_cons, if_neg (by simp [hc])]
        change (match runs (run ++ rest) with | [] => _ | run :: runs => _) = _
        rw [hruns]
      · simpa [hc] using hrun

theorem divides_words (text : String) : Divides text.toList (words text) := by
  obtain ⟨run, rs, rest, hruns, htext, hrun, hrest, hdiv⟩ := runs_spec text.toList
  rw [words_eq, hruns, htext]
  exact .of_run hrun hrest hdiv

theorem runs_of_unbroken {text : List Char} (h : ∀ c ∈ text, isBlank c = false) :
    runs text = [text] := by
  induction text with
  | nil => rfl
  | cons c text ih =>
    have hc : isBlank c = false := h c List.mem_cons_self
    rw [runs, List.foldr_cons, if_neg (by simp [hc])]
    change (match runs text with | [] => _ | run :: runs => _) = _
    rw [ih fun d hd => h d (List.mem_cons_of_mem c hd)]

theorem words_of_unbroken {text : String} (hne : text.toList ≠ [])
    (h : ∀ c ∈ text.toList, isBlank c = false) : words text = [text] := by
  rw [words_eq, runs_of_unbroken h]
  simp [ofRuns, hne]

theorem runs_append_blank {c : Char} (hc : isBlank c = true) (text text' : List Char) :
    runs (text ++ c :: text') = runs text ++ runs text' := by
  induction text with
  | nil =>
    rw [List.nil_append, runs, List.foldr_cons, if_pos hc]
    rfl
  | cons d text ih =>
    obtain ⟨run, rs, _, hruns, _⟩ := runs_spec text
    rw [hruns] at ih
    have hcons : ∀ text, runs (d :: text) = if isBlank d then [] :: runs text else
        match runs text with
        | [] => [[d]]
        | run :: rs => (d :: run) :: rs := fun _ => rfl
    rw [List.cons_append, hcons, hcons, ih, hruns]
    split <;> rfl

theorem words_append_space (text text' : String) :
    words (text ++ " " ++ text') = words text ++ words text' := by
  have hruns := runs_append_blank (c := ' ') rfl text.toList text'.toList
  rw [words_eq, words_eq, words_eq, String.toList_append, String.toList_append, List.append_assoc]
  change ofRuns (runs (text.toList ++ ' ' :: text'.toList)) = _
  rw [hruns, ofRuns, ofRuns, ofRuns, List.filter_append, List.map_append]

end ReversePolish
