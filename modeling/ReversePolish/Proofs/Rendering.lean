import ReversePolish.Proofs.NumberText
import ReversePolish.Proofs.Postfix
import ReversePolish.Proofs.PureTrees

namespace ReversePolish

def isBreak (c : Char) : Bool :=
  c == ' ' || c == '(' || c == ')'

theorem isBreak_eq_false {c : Char} (hspace : c ≠ ' ') (hopen : c ≠ '(') (hclose : c ≠ ')') :
    isBreak c = false := by
  simp [isBreak, hspace, hopen, hclose]

structure IsWord (cs : List Char) : Prop where
  ne_nil : cs ≠ []
  unbroken : ∀ c ∈ cs, isBreak c = false

def AtBreak (cs : List Char) : Prop :=
  ∀ c ∈ cs.head?, isBreak c = true

theorem atBreak_cons {c : Char} {cs : List Char} (h : isBreak c = true) : AtBreak (c :: cs) := by
  rintro _ ⟨⟩
  exact h

section Words

variable {word word' rest rest' : List Char}

theorem IsWord.append_inj (hw : IsWord word) (hw' : IsWord word') (hrest : AtBreak rest)
    (hrest' : AtBreak rest') (h : word ++ rest = word' ++ rest') : word = word' ∧ rest = rest' := by
  have hrun : ∀ {cs}, IsWord cs → ∀ c ∈ cs, (!isBreak c) = true := fun hcs c hc => by
    rw [hcs.unbroken c hc]
    rfl
  have hstop : ∀ {cs}, AtBreak cs → Number.Stops (!isBreak ·) cs := fun hcs c hc => by
    change (!isBreak c) = false
    rw [hcs c hc]
    rfl
  have htake := congrArg (List.takeWhile (!isBreak ·)) h
  have hdrop := congrArg (List.dropWhile (!isBreak ·)) h
  rw [Number.takeWhile_run (hrun hw) (hstop hrest),
    Number.takeWhile_run (hrun hw') (hstop hrest')] at htake
  rw [Number.dropWhile_run (hrun hw) (hstop hrest),
    Number.dropWhile_run (hrun hw') (hstop hrest')] at hdrop
  exact ⟨htake, hdrop⟩

theorem IsWord.append_ne (hw : IsWord word) : word ++ rest ≠ '(' :: rest' := by
  obtain ⟨c, cs, rfl⟩ := List.exists_cons_of_ne_nil hw.ne_nil
  intro h
  obtain rfl : c = '(' := (List.cons.inj h).1
  cases hw.unbroken '(' List.mem_cons_self

end Words

theorem isWord_symbol (op : Operation) : IsWord op.symbol.toList := by
  cases op <;> exact ⟨by simp [Operation.symbol], by simp [Operation.symbol, isBreak]⟩

theorem isWord_format (x : Float) : IsWord (Number.format x).toList := by
  constructor
  · intro hnil
    obtain ⟨y, hy⟩ := Number.exists_read?_format x
    rw [Number.read?, hnil] at hy
    cases hy
  · intro c hc
    obtain h | rfl | rfl := Number.plain_format x c hc
    · refine isBreak_eq_false ?_ ?_ ?_ <;> rintro rfl <;> cases h
    · rfl
    · rfl

namespace Tree

mutual

def spell : Tree → List Char
  | .var name => name.toList
  | .num value => (Number.format value).toList
  | .apply op operands => '(' :: (op.symbol.toList ++ (spellAll operands ++ [')']))
  | .missing id => ("<invalid " ++ nodeText id ++ ">").toList

def spellAll : List Tree → List Char
  | [] => []
  | t :: ts => ' ' :: (spell t ++ spellAll ts)

end

theorem toList_renderOperandsOnto {ts : List Tree}
    (hts : ∀ t ∈ ts, ∀ text, (t.renderOnto text).toList = text.toList ++ t.spell) :
    ∀ text, (renderOperandsOnto text ts).toList = text.toList ++ spellAll ts := by
  induction ts with
  | nil =>
    intro text
    simp [renderOperandsOnto, spellAll]
  | cons t ts ih =>
    intro text
    rw [renderOperandsOnto, ih fun u hu => hts u (List.mem_cons_of_mem t hu), hts t List.mem_cons_self]
    simp [spellAll]

theorem toList_renderOnto (t : Tree) : ∀ text, (t.renderOnto text).toList = text.toList ++ t.spell := by
  induction t using induct with
  | var name => simp [renderOnto, spell]
  | num value => simp [renderOnto, spell]
  | missing id => simp [renderOnto, spell]
  | apply op operands ih =>
    intro text
    rw [renderOnto, String.toList_append, toList_renderOperandsOnto ih]
    simp [spell]

theorem toList_render (t : Tree) : t.render.toList = t.spell := by
  rw [render, toList_renderOnto]
  rfl

/-- The same tree, but that one float may stand in another's place if neither is a number. -/
inductive Alike : Tree → Tree → Prop
  | var (name) : Alike (.var name) (.var name)
  | num {x y} : x = y ∨ Number.parts x = .nan ∧ Number.parts y = .nan → Alike (.num x) (.num y)
  | apply (op) {ts us} : List.Forall₂ Alike ts us → Alike (.apply op ts) (.apply op us)

/-- A tree that nothing is missing in, and whose variables have names that no number has and that
are words of the text. -/
inductive Spelled : Tree → Prop
  | var {name} : IsWord name.toList → Number.read? name = none → Spelled (.var name)
  | num (value) : Spelled (.num value)
  | apply (op) {operands} : (∀ t ∈ operands, Spelled t) → Spelled (.apply op operands)

variable {t t' : Tree} {ts : List Tree} {rest rest' : List Char}

theorem atBreak_spellAll (ts : List Tree) (rest : List Char) : AtBreak (spellAll ts ++ ')' :: rest) := by
  cases ts <;> exact atBreak_cons rfl

theorem alike_of_spellAll_eq
    (hts : ∀ t ∈ ts, ∀ {t' rest rest'}, Spelled t' → AtBreak rest → AtBreak rest' →
      t.spell ++ rest = t'.spell ++ rest' → Alike t t' ∧ rest = rest') :
    ∀ {ts' : List Tree}, (∀ t ∈ ts', Spelled t) →
      spellAll ts ++ ')' :: rest = spellAll ts' ++ ')' :: rest' →
      List.Forall₂ Alike ts ts' ∧ rest = rest' := by
  induction ts with
  | nil =>
    intro ts' _ h
    cases ts' with
    | nil => exact ⟨.nil, (List.cons.inj h).2⟩
    | cons t' ts' => cases (List.cons.inj h).1
  | cons t ts ih =>
    intro ts' hts' h
    cases ts' with
    | nil => cases (List.cons.inj h).1
    | cons t' ts' =>
      simp only [spellAll, List.cons_append, List.append_assoc, List.cons.injEq, true_and] at h
      obtain ⟨halike, hrest⟩ := hts t List.mem_cons_self (hts' t' List.mem_cons_self)
        (atBreak_spellAll ts rest) (atBreak_spellAll ts' rest') h
      obtain ⟨hall, hrest⟩ := ih (fun u hu => hts u (List.mem_cons_of_mem t hu))
        (fun u hu => hts' u (List.mem_cons_of_mem t' hu)) hrest
      exact ⟨.cons halike hall, hrest⟩

theorem Spelled.alike_of_spell_eq (ht : t.Spelled) :
    ∀ {t' rest rest'}, Spelled t' → AtBreak rest → AtBreak rest' →
      t.spell ++ rest = t'.spell ++ rest' → Alike t t' ∧ rest = rest' := by
  induction ht with
  | @var name hword hread =>
    intro t' rest rest' ht' hrest hrest' h
    cases ht' with
    | @var name' hword' _ =>
      obtain ⟨hname, hrest⟩ := hword.append_inj hword' hrest hrest' h
      obtain rfl := String.toList_inj.1 hname
      exact ⟨.var name, hrest⟩
    | num value =>
      obtain ⟨hname, _⟩ := hword.append_inj (isWord_format value) hrest hrest' h
      obtain ⟨y, hy⟩ := Number.exists_read?_format value
      rw [← String.toList_inj.1 hname, hread] at hy
      cases hy
    | apply op _ => exact absurd h hword.append_ne
  | num x =>
    intro t' rest rest' ht' hrest hrest' h
    cases ht' with
    | @var name hword hread =>
      obtain ⟨hname, _⟩ := (isWord_format x).append_inj hword hrest hrest' h
      obtain ⟨y, hy⟩ := Number.exists_read?_format x
      rw [String.toList_inj.1 hname, hread] at hy
      cases hy
    | num y =>
      obtain ⟨hformat, hrest⟩ := (isWord_format x).append_inj (isWord_format y) hrest hrest' h
      exact ⟨.num (Number.eq_or_nan_of_format_eq (String.toList_inj.1 hformat)), hrest⟩
    | apply op _ => exact absurd h (isWord_format x).append_ne
  | @apply op operands _ ih =>
    intro t' rest rest' ht' hrest hrest' h
    cases ht' with
    | var hword _ => exact absurd h.symm hword.append_ne
    | num y => exact absurd h.symm (isWord_format y).append_ne
    | @apply op' operands' hoperands' =>
      simp only [spell, List.cons_append, List.append_assoc, List.cons.injEq, true_and,
        List.nil_append] at h
      obtain ⟨hsymbol, hoperands⟩ := (isWord_symbol op).append_inj (isWord_symbol op')
        (atBreak_spellAll _ _) (atBreak_spellAll _ _) h
      obtain rfl := Operation.symbol_injective (String.toList_inj.1 hsymbol)
      obtain ⟨hall, hrest⟩ := alike_of_spellAll_eq ih hoperands' hoperands
      exact ⟨.apply op hall, hrest⟩

theorem spellAll_eq_of_alike {ts' : List Tree}
    (hts : ∀ t ∈ ts, ∀ {t'}, Alike t t' → t.spell = t'.spell) (h : List.Forall₂ Alike ts ts') :
    spellAll ts = spellAll ts' := by
  induction h with
  | nil => rfl
  | @cons t t' ts ts' halike _ ih =>
    rw [spellAll, spellAll, hts t List.mem_cons_self halike,
      ih fun u hu => hts u (List.mem_cons_of_mem t hu)]

theorem spell_eq_of_alike (t : Tree) : ∀ {t'}, Alike t t' → t.spell = t'.spell := by
  induction t using induct with
  | var name =>
    rintro _ ⟨⟩
    rfl
  | num x =>
    rintro _ (_ | @⟨_, y, rfl | ⟨hx, hy⟩⟩ | _)
    · rfl
    · simp only [spell, Number.format, Number.Layout.writeFloat, hx, hy]
  | missing id => rintro _ ⟨⟩
  | apply op operands ih =>
    rintro _ (_ | _ | ⟨_, hall⟩)
    rw [spell, spell, spellAll_eq_of_alike ih hall]

theorem Spelled.render_eq_iff (ht : t.Spelled) (ht' : t'.Spelled) :
    t.render = t'.render ↔ Alike t t' := by
  rw [← String.toList_inj, toList_render, toList_render]
  constructor
  · intro h
    have hnil : AtBreak [] := by rintro c ⟨⟩
    exact (ht.alike_of_spell_eq ht' hnil hnil (congrArg (· ++ []) h)).1
  · exact spell_eq_of_alike t

theorem Complete.spelled (ht : t.Complete)
    (hnames : ∀ name, t.Occurs name → IsWord name.toList ∧ Number.read? name = none) : t.Spelled := by
  induction ht with
  | var name =>
    obtain ⟨hword, hread⟩ := hnames name .var
    exact .var hword hread
  | num value => exact .num value
  | @apply op operands _ _ ih =>
    exact .apply op fun u hu => ih u hu fun name hname => hnames name (.operand hu hname)

end Tree

theorem Graph.exists_of_occurs_unfoldTo {g : Graph} {name : String} (depth : Nat) :
    ∀ {id : Nat}, (g.unfoldTo depth id).Occurs name → ∃ id : Nat, g[id]? = some (.var name) := by
  induction depth with
  | zero =>
    intro id h
    cases h
  | succ depth ih =>
    intro id h
    rw [unfoldTo] at h
    split at h
    · cases h
    · next hn =>
      cases h
      exact ⟨id, hn⟩
    · cases h
    · cases h with
      | operand ht hname =>
        obtain ⟨x, _, rfl⟩ := List.mem_map.1 ht
        exact ih hname

def Graph.Unbracketed (g : Graph) : Prop :=
  ∀ (id : Nat) (name : String), g[id]? = some (.var name) → '(' ∉ name.toList ∧ ')' ∉ name.toList

theorem Divides.word_of_mem {text : List Char} {ws : List String} {w : String} (h : Divides text ws)
    (hw : w ∈ ws) : w.toList ≠ [] ∧ ∀ c ∈ w.toList, isBlank c = false := by
  induction h with
  | nil => cases hw
  | blank _ _ ih => exact ih hw
  | word hne hrun _ _ ih =>
    obtain rfl | hw := List.mem_cons.1 hw
    · rw [String.toList_ofList]
      exact ⟨hne, hrun⟩
    · exact ih hw

section Program

variable {v v' : Vocabulary} {text text' : String} {p p' : Program}

theorem Program.word_of_read {id : Nat} {name : String} (hp : Program.read v text = .ok p)
    (hn : p.graph[id]? = some (.var name)) : name ∈ words text ∧ Number.read? name = none := by
  have htoken : Token.var name ∈ (words text).map (Token.ofWord v) := by
    rw [← (Program.token_of_read hp).1]
    exact List.mem_map.2 ⟨.var name, Array.mem_toList_iff.2 (Array.mem_of_getElem? hn), rfl⟩
  obtain ⟨word, hword, hof⟩ := List.mem_map.1 htoken
  unfold Token.ofWord at hof
  split at hof
  · cases hof
  · split at hof
    · cases hof
    · next hread =>
      cases hof
      exact ⟨hword, hread⟩

theorem Program.spelled_of_read (hp : Program.read v text = .ok p) (hnames : p.graph.Unbracketed) :
    (p.graph.unfold p.root).Spelled := by
  obtain ⟨_, hcomplete⟩ := Forest.foldlM_push_eq_some_iff.1 (Program.foldlM_push_of_read hp)
  refine (hcomplete _ List.mem_cons_self).spelled fun name hname => ?_
  obtain ⟨id, hn⟩ := Graph.exists_of_occurs_unfoldTo _ hname
  obtain ⟨hword, hread⟩ := Program.word_of_read hp hn
  obtain ⟨hne, hblank⟩ := (divides_words text).word_of_mem hword
  obtain ⟨hopen, hclose⟩ := hnames id name hn
  refine ⟨⟨hne, fun c hc => ?_⟩, hread⟩
  refine isBreak_eq_false ?_ (fun h => hopen (h ▸ hc)) fun h => hclose (h ▸ hc)
  rintro rfl
  cases hblank ' ' hc

end Program

/-- The text of a program tells its tree, whatever it has been read from, if no name has a
parenthesis in it. -/
theorem rendering_determines_tree (v v' : Vocabulary) (text text' : String) (p p' : Program)
    (hp : Program.read v text = .ok p) (hp' : Program.read v' text' = .ok p')
    (hnames : p.graph.Unbracketed) (hnames' : p'.graph.Unbracketed) :
    p.render = p'.render ↔ (p.graph.unfold p.root).Alike (p'.graph.unfold p'.root) :=
  (Program.spelled_of_read hp hnames).render_eq_iff (Program.spelled_of_read hp' hnames')

theorem rendering_determines_tree_renamed :
    ∃ p p', Program.read .standard "2 x +" = .ok p ∧
      Program.read (Vocabulary.insert {} "plus" .add) "20e-1 x plus" = .ok p' ∧
      p.render = "(+ x 2.0)" ∧ (p.graph.unfold p.root).Alike (p'.graph.unfold p'.root) := by
  let g : Graph := #[.num 2.0, .var "x", .apply .add [1, 0]]
  have hread : Program.read .standard "2 x +" = .ok ⟨g, 2⟩ := by decide +kernel
  have hread' : Program.read (Vocabulary.insert {} "plus" .add) "20e-1 x plus" = .ok ⟨g, 2⟩ := by
    decide +kernel
  have hnames : g.Unbracketed := by
    intro id name hn
    obtain ⟨hid, _⟩ := Array.getElem?_eq_some_iff.1 hn
    obtain rfl | rfl | rfl : id = 0 ∨ id = 1 ∨ id = 2 := by
      have hsize : g.size = 3 := rfl
      omega
    · cases hn
    · cases hn
      decide
    · cases hn
  exact ⟨_, _, hread, hread', by decide +kernel,
    (rendering_determines_tree _ _ _ _ _ _ hread hread' hnames hnames).1 rfl⟩

-- A name may not have parentheses: it could be that of an operation without operands.
example : (Tree.var "(nop)").render = (Tree.apply .nop []).render := by decide +kernel

end ReversePolish
