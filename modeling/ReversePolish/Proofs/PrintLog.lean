import ReversePolish.Proofs.Attribution
import ReversePolish.Proofs.Printing
import ReversePolish.Proofs.Rendering

namespace ReversePolish

section Lines

theorem newline_not_mem_format (x : Float) : '\n' ∉ (Number.format x).toList := by
  intro h
  obtain h | h | h := Number.plain_format x _ h
  · cases h
  · exact absurd h (by decide)
  · exact absurd h (by decide)

theorem newline_not_mem_symbol (op : Operation) : '\n' ∉ op.symbol.toList := by
  cases op <;> simp [Operation.symbol]

theorem newline_not_mem_nodeText (id : Nat) : '\n' ∉ (nodeText id).toList := by
  have hdigits : '\n' ∉ Nat.toDigits 10 id := by
    intro h
    cases Nat.isDigit_of_mem_toDigits (by decide) (by decide) h
  simp [nodeText, hdigits]

theorem Tree.newline_not_mem_spellAll {ts : List Tree} (h : ∀ t ∈ ts, '\n' ∉ t.spell) :
    '\n' ∉ spellAll ts := by
  induction ts with
  | nil => simp [spellAll]
  | cons t ts ih =>
    have ht : '\n' ∉ t.spell := h t List.mem_cons_self
    have hts : '\n' ∉ spellAll ts := ih fun u hu => h u (List.mem_cons_of_mem t hu)
    simp [spellAll, ht, hts]

theorem Tree.newline_not_mem_spell (t : Tree) (h : ∀ name, t.Occurs name → '\n' ∉ name.toList) :
    '\n' ∉ t.spell := by
  induction t using induct with
  | var name => exact h name .var
  | num value => exact newline_not_mem_format value
  | missing id => simp [spell, newline_not_mem_nodeText]
  | apply op operands ih =>
    have hoperands : '\n' ∉ spellAll operands :=
      newline_not_mem_spellAll fun u hu => ih u hu fun name hname => h name (.operand hu hname)
    simp [spell, newline_not_mem_symbol, hoperands]

theorem not_mem_intercalate {c : Char} {sep : List Char} {parts : List (List Char)} (hsep : c ∉ sep)
    (h : ∀ part ∈ parts, c ∉ part) : c ∉ sep.intercalate parts := by
  induction parts with
  | nil => simp
  | cons part parts ih =>
    have hpart : c ∉ part := h part List.mem_cons_self
    have hparts : c ∉ sep.intercalate parts := ih fun other ho => h other (List.mem_cons_of_mem part ho)
    cases parts with
    | nil => simpa using hpart
    | cons other parts =>
      rw [List.intercalate_cons_cons]
      simp [hpart, hsep, hparts]

theorem Heap.newline_not_mem_render (h : Heap) (id : Nat) : '\n' ∉ (h.render id).toList := by
  have helements : '\n' ∉ (", ".intercalate ((h.buffer id).toList.map Number.format)).toList := by
    rw [String.toList_intercalate]
    refine not_mem_intercalate (by simp) fun part hpart => ?_
    simp only [List.map_map, List.mem_map] at hpart
    obtain ⟨x, _, rfl⟩ := hpart
    exact newline_not_mem_format x
  rw [render, String.toList_append, String.toList_append]
  simpa only [List.mem_append, not_or] using ⟨⟨by simp, helements⟩, by simp⟩

def Library.ReadAt (lib : Library) (p : Place) : Prop :=
  ∃ v text root, Program.read v text = .ok ⟨lib.graph p.graph, root⟩

variable {lib : Library} {p : Place}

theorem Library.ReadAt.newline_not_mem_render (hp : lib.ReadAt p) : '\n' ∉ (lib.render p).toList := by
  obtain ⟨v, text, root, hread⟩ := hp
  rw [Library.render, Graph.render, Tree.toList_render]
  apply Tree.newline_not_mem_spell
  intro name hname
  obtain ⟨id, hn⟩ := Graph.exists_of_occurs_unfoldTo _ hname
  obtain ⟨hword, _⟩ := Program.word_of_read hread hn
  intro hmem
  cases ((divides_words text).word_of_mem hword).2 _ hmem

theorem Value.newline_not_mem_render {v : Value} (hv : v.Within fun _ => lib.ReadAt) (h : Heap) :
    '\n' ∉ (v.render lib h).toList := by
  match v with
  | .number x => exact newline_not_mem_format x
  | .array id => exact h.newline_not_mem_render id
  | .boolean true | .boolean false | .nop => simp [render]
  | .deferred .subroutine body | .deferred .loopBody body =>
    have hbody : lib.ReadAt body := hv
    simp [render, hbody.newline_not_mem_render]

end Lines

theorem State.printer_apply_of_immediate {s : State} {e : Effect} (h : e.Immediate) :
    (s.apply e).printer = s.printer := by
  cases e with
  | none | bind => rfl
  | _ => exact h.elim

theorem State.printer_apply_of_mayDo {s : State} {pending : Pending} {e : Effect}
    (h : pending.MayDo e) (hline : pending ≠ .line) : (s.apply e).printer = s.printer := by
  cases e with
  | none | bind | bindZeros | store => rfl
  | println line =>
    cases pending with
    | line => exact absurd rfl hline
    | _ => exact h.elim

namespace Machine

variable {lib : Library} {m k m₀ : Machine} {p : Place}

theorem printer_charged (m : Machine) : m.charged.printer = m.state.printer := by
  obtain ⟨control, frames, s⟩ := m
  cases control <;> rfl

theorem printer_step (h : m.printed? = none) :
    (m.step lib).All (fun n => n.state.printer = m.state.printer)
      fun o => o.state.printer = m.state.printer := by
  have hcharged := m.printer_charged
  refine state_step (Q := fun s => s.printer = m.state.printer) hcharged ?_ ?_
  · intro e he
    rw [State.printer_apply_of_immediate he, hcharged]
  · intro v f frames e hcontrol hframes he
    rw [State.printer_apply_of_mayDo he, hcharged]
    obtain ⟨graph, op, pending⟩ := f
    rintro rfl
    rw [printed?, hcontrol, hframes] at h
    cases h

theorem step_of_visited (h : m.visited? = some p) : m.step lib = visit lib p m.frames m.state.tick := by
  obtain ⟨control, frames, s⟩ := m
  obtain ⟨rfl, hover⟩ : control = .enter p ∧ s.tick.meter.overrun? = none := visited?_eq_some h
  exact step_enter_of_overrun? lib p frames hover

theorem visit_print {x : Nat} {frames : List Frame} {s : State}
    (hn : lib.node? p = some (.apply .print [x])) :
    visit lib p frames s = .next ⟨.enter ⟨p.graph, x⟩, ⟨p.graph, .print, .line⟩ :: frames, s⟩ := by
  rw [visit, hn]
  rfl

theorem Opens.exists_operand (h : k.Opens lib .print) (hm₀ : Reaches lib k.alone m₀)
    (hne : m₀.frames ≠ []) :
    ∃ p x, k.visited? = some p ∧ lib.node? p = some (.apply .print [x]) ∧
      Reaches lib ⟨.enter ⟨p.graph, x⟩, [⟨p.graph, .print, .line⟩], k.state.tick⟩ m₀ := by
  obtain ⟨p, operands, hp, hn⟩ := h
  obtain rfl | ⟨n, hs, hn₀⟩ := Relation.ReflTransGen.cases_head hm₀
  · exact absurd rfl hne
  have hstep : k.alone.step lib = visit lib p [] k.state.tick := step_of_visited hp
  rw [hstep] at hs
  match operands with
  | [x] =>
    rw [visit_print hn] at hs
    obtain rfl := Turn.next.inj hs
    exact ⟨p, x, hp, hn, hn₀⟩
  | [] | _ :: _ :: _ =>
    rw [visit, hn] at hs
    cases hs

theorem Opens.exists_value {v : Value} {graph : Nat} {s : State} (h : k.Opens lib .print)
    (hm₀ : Reaches lib k.alone ⟨.deliver v, [⟨graph, .print, .line⟩], s⟩) :
    ∃ p x, k.visited? = some p ∧ lib.node? p = some (.apply .print [x]) ∧ p.graph = graph ∧
      Evaluates lib ⟨p.graph, x⟩ k.state.tick ⟨.ok v, s⟩ := by
  obtain ⟨p, x, hp, hn, hrun⟩ := h.exists_operand hm₀ (by simp)
  refine ⟨p, x, hp, hn, ?_⟩
  let inner : Machine := { control := .enter ⟨p.graph, x⟩, state := k.state.tick }
  have hrun : Reaches lib (inner.onto [⟨p.graph, .print, .line⟩]) _ := hrun
  obtain ⟨⟨control, frames, s'⟩, ha, he⟩ | ⟨w, s', hends, hrest⟩ := hrun.of_onto
  · obtain ⟨rfl, hframes, rfl⟩ : control = .deliver v ∧
        frames ++ [⟨p.graph, .print, .line⟩] = [⟨graph, .print, .line⟩] ∧ s' = s := by
      simpa [onto, eq_comm] using he
    obtain ⟨rfl, hgraph⟩ : frames = [] ∧ p.graph = graph := by
      simpa [List.append_eq_singleton_iff] using hframes
    exact ⟨hgraph, ha.ends (.of_done rfl)⟩
  · obtain he | ⟨n, hs, hlast⟩ := Relation.ReflTransGen.cases_head hrest
    · obtain ⟨rfl, hgraph, rfl⟩ : w = v ∧ p.graph = graph ∧ s' = s := by simpa using he
      exact ⟨hgraph, hends⟩
    · -- Once the value has been printed, nothing waits any more.
      obtain rfl := Turn.next.inj hs
      cases Reaches.eq_of_done hlast rfl

end Machine

/-- An evaluation of a print node whose operand comes to a value. -/
structure Print where
  place : Place
  operand : Nat
  entered : Machine
  value : Value
  state : State

namespace Print

def line (lib : Library) (c : Print) : String :=
  c.value.render lib c.state.heap

def inner (c : Print) : Machine :=
  { control := .enter ⟨c.place.graph, c.operand⟩, state := c.entered.state.tick }

def waiting (c : Print) : List Frame :=
  ⟨c.place.graph, .print, .line⟩ :: c.entered.frames

def moment (c : Print) : Machine :=
  ⟨.deliver c.value, c.waiting, c.state⟩

structure Completes (lib : Library) (start : Machine) (c : Print) : Prop where
  reached : Machine.Reaches lib start c.entered
  visits : c.entered.visited? = some c.place
  node : lib.node? c.place = some (.apply .print [c.operand])
  evaluates : Evaluates lib ⟨c.place.graph, c.operand⟩ c.entered.state.tick ⟨.ok c.value, c.state⟩

def text (lib : Library) (log : List Print) : String :=
  String.join (log.map fun c => c.line lib ++ "\n")

variable {lib : Library} {start m : Machine} {c c' : Print} {o : Outcome}

theorem step_moment (lib : Library) (c : Print) :
    c.moment.step lib =
      .next ⟨.deliver c.value, c.entered.frames, c.state.apply (.println (c.line lib))⟩ := rfl

theorem printed?_moment (c : Print) : c.moment.printed? = some c.value := rfl

namespace Completes

theorem step_entered (h : c.Completes lib start) :
    c.entered.step lib = .next (c.inner.onto c.waiting) := by
  rw [Machine.step_of_visited h.visits, Machine.visit_print h.node]
  rfl

theorem reaches_moment (h : c.Completes lib start) :
    Machine.Reaches lib (c.inner.onto c.waiting) c.moment :=
  h.evaluates.ends.onto c.waiting

theorem reaches (h : c.Completes lib start) : Machine.Reaches lib start c.moment :=
  h.reached.trans (.head h.step_entered h.reaches_moment)

theorem entered_eq (h : c.Completes lib start) (h' : c'.Completes lib start)
    (hends : Machine.Ends lib start o) (he : c.moment = c'.moment)
    (hreach : Machine.Reaches lib c.entered c'.entered) : c.entered = c'.entered := by
  obtain hsame | ⟨n, hs, hn⟩ := Relation.ReflTransGen.cases_head hreach
  · exact hsame
  rw [h.step_entered] at hs
  obtain rfl := Turn.next.inj hs
  have hwaiting : c.waiting = c'.waiting := congrArg Machine.frames he
  obtain ⟨a, _, ha⟩ | ⟨v, s, hv, hback⟩ := Machine.Reaches.of_onto hn
  · -- As long as the operand is evaluated, more operations wait than when the node was entered.
    have hlen : c'.entered.frames.length = a.frames.length + c'.waiting.length := by
      rw [ha, Machine.onto, List.length_append, hwaiting]
    simp only [waiting, List.length_cons] at hlen
    omega
  · -- After that, the other one would come to the same moment once more.
    cases hv.unique h.evaluates.ends
    have hback' : Machine.Reaches lib c'.moment c'.entered := he ▸ hback
    exact absurd (h'.reaches_moment.trans hback')
      ((h'.reached.ends_of hends).not_reaches h'.step_entered)

theorem eq_of_moment_eq (h : c.Completes lib start) (h' : c'.Completes lib start)
    (hends : Machine.Ends lib start o) (he : c.moment = c'.moment) : c = c' := by
  have hentered : c.entered = c'.entered := by
    obtain hreach | hreach := h.reached.total h'.reached
    · exact h.entered_eq h' hends he hreach
    · exact (h'.entered_eq h hends he.symm hreach).symm
  obtain ⟨p, x, k, v, s⟩ := c
  obtain ⟨p', x', k', v', s'⟩ := c'
  obtain rfl : k = k' := hentered
  obtain rfl : p = p' := Option.some.inj (h.visits.symm.trans h'.visits)
  obtain rfl : x = x' := by simpa using h.node.symm.trans h'.node
  obtain ⟨rfl, rfl⟩ : v = v' ∧ s = s' := by simpa [moment, waiting] using he
  rfl

end Completes

section Log

variable {I : Invariant lib} (hstart : start.frames = []) (hI : I.Holds start)

include hstart hI in
theorem exists_completes {v : Value} (hm : Machine.Reaches lib start m) (hv : m.printed? = some v) :
    ∃ c : Print, c.Completes lib start ∧ c.moment = m := by
  obtain ⟨control, frames, s⟩ := m
  obtain ⟨rfl, graph, op, fs, rfl⟩ := Machine.printed?_eq_some hv
  obtain ⟨_, _, _, _, hsuits, _⟩ := (hI.reaches hm).frames _ List.mem_cons_self
  obtain rfl : op = .print := by
    cases hsuits
    rfl
  obtain ⟨k, ⟨control₀, frames₀, s₀⟩, hk, hopens, rfl, hreach, honto, _⟩ :=
    Machine.exists_opens hstart hm [] _ fs rfl
  obtain ⟨rfl, hframes, rfl⟩ : control₀ = .deliver v ∧
      frames₀ ++ k.frames = [⟨graph, .print, .line⟩] ++ k.frames ∧ s₀ = s := by
    simpa [Machine.onto, eq_comm] using honto
  obtain rfl := List.append_cancel_right hframes
  obtain ⟨p, x, hp, hn, rfl, hvalue⟩ := hopens.exists_value hreach
  exact ⟨⟨p, x, k, v, s₀⟩, ⟨hk, hp, hn, hvalue⟩, rfl⟩

theorem text_cons (lib : Library) (c : Print) (log : List Print) :
    text lib (c :: log) = c.line lib ++ "\n" ++ text lib log := by
  rw [text, List.map_cons, String.join_cons]
  rfl

/-- The evaluations of print nodes that are still to come to their values, in the order in which
they do. -/
structure IsLog (lib : Library) (start m : Machine) (log : List Print) : Prop where
  mem_iff : ∀ c, c ∈ log ↔ c.Completes lib start ∧ Machine.Reaches lib m c.moment
  nodup : log.Nodup
  ordered : log.Pairwise fun c c' => Machine.Reaches lib c.moment c'.moment

variable {log : List Print} {m' : Machine}

theorem isLog_of_done (h : m.step lib = .done o) : IsLog lib start m [] where
  mem_iff c := by
    refine ⟨by simp, ?_⟩
    rintro ⟨_, hreach⟩
    have hs := c.step_moment lib
    rw [hreach.eq_of_done h, h] at hs
    cases hs
  nodup := .nil
  ordered := .nil

theorem IsLog.silent (h : IsLog lib start m' log) (hs : m.step lib = .next m')
    (hm : m.printed? = none) : IsLog lib start m log where
  mem_iff c := by
    rw [h.mem_iff]
    refine and_congr_right fun _ => ⟨.head hs, fun hreach => ?_⟩
    obtain rfl | ⟨n, hs', hn⟩ := Relation.ReflTransGen.cases_head hreach
    · rw [printed?_moment] at hm
      cases hm
    · obtain rfl := Turn.next.inj (hs.symm.trans hs')
      exact hn
  nodup := h.nodup
  ordered := h.ordered

theorem IsLog.cons (h : IsLog lib start m' log) (hc : c.Completes lib start)
    (hends : Machine.Ends lib start o) (hm : Machine.Reaches lib start c.moment)
    (hs : c.moment.step lib = .next m') : IsLog lib start c.moment (c :: log) where
  mem_iff c' := by
    rw [List.mem_cons, h.mem_iff]
    constructor
    · rintro (rfl | ⟨hc', hreach⟩)
      · exact ⟨hc, .refl⟩
      · exact ⟨hc', .head hs hreach⟩
    · rintro ⟨hc', hreach⟩
      obtain he | ⟨n, hs', hn⟩ := Relation.ReflTransGen.cases_head hreach
      · exact .inl (hc'.eq_of_moment_eq hc hends he.symm)
      · obtain rfl := Turn.next.inj (hs.symm.trans hs')
        exact .inr ⟨hc', hn⟩
  nodup := by
    refine List.nodup_cons.2 ⟨fun hmem => ?_, h.nodup⟩
    exact (hm.ends_of hends).not_reaches hs ((h.mem_iff c).1 hmem).2
  ordered := List.pairwise_cons.2 ⟨fun c' hc' => .head hs ((h.mem_iff c').1 hc').2, h.ordered⟩

include hstart hI in
theorem exists_isLog (hends : Machine.Ends lib start o) (hm : Machine.Reaches lib start m) :
    ∃ log, IsLog lib start m log ∧ o.state.printer = m.state.printer.append (text lib log) := by
  obtain ⟨fuel, hrun⟩ := hm.ends_of hends
  induction fuel generalizing m with
  | zero => cases hrun
  | succ fuel ih =>
    match hv : m.printed? with
    | none =>
      have hkeeps : (m.step lib).All (fun n => n.state.printer = m.state.printer)
          fun o => o.state.printer = m.state.printer := Machine.printer_step hv
      match hs : m.step lib with
      | .done o' =>
        rw [Machine.run_succ_of_done hs] at hrun
        obtain rfl := Option.some.inj hrun
        rw [hs] at hkeeps
        have hprinter : o'.state.printer = m.state.printer := hkeeps
        exact ⟨[], isLog_of_done hs, by simp [hprinter, text]⟩
      | .next m' =>
        rw [Machine.run_succ_of_next hs] at hrun
        obtain ⟨log, hlog, hprinter⟩ := ih (hm.tail hs) hrun
        rw [hs] at hkeeps
        have hkept : m'.state.printer = m.state.printer := hkeeps
        exact ⟨log, hlog.silent hs hv, by rw [hprinter, hkept]⟩
    | some v =>
      obtain ⟨c, hc, rfl⟩ := exists_completes hstart hI hm hv
      have hs := c.step_moment lib
      rw [Machine.run_succ_of_next hs] at hrun
      obtain ⟨log, hlog, hprinter⟩ := ih (hm.tail hs) hrun
      refine ⟨c :: log, hlog.cons hc hends hm hs, ?_⟩
      have hprinted : (c.state.apply (.println (c.line lib))).printer =
          c.state.printer.append (c.line lib ++ "\n") := c.state.printer.println_eq_append _
      rw [hprinter, hprinted, Printer.append_append, text_cons]
      rfl

end Log

theorem count_newline_text (h : ∀ c ∈ log, '\n' ∉ (c.line lib).toList) :
    (text lib log).toList.count '\n' = log.length := by
  induction log with
  | nil => rfl
  | cons c log ih =>
    have hc : (c.line lib).toList.count '\n' = 0 := List.count_eq_zero.2 (h c List.mem_cons_self)
    have hlog := ih fun c' hc' => h c' (List.mem_cons_of_mem c hc')
    rw [text_cons, String.toList_append, String.toList_append, List.count_append, List.count_append, hc,
      hlog, List.length_cons]
    simp [Nat.add_comm]

end Print

/-- If all the programs have been read from texts, a buffer gets one line for every evaluation of a
print node whose operand comes to a value, in the order in which they do, and gets nothing else. The
line is the text that the value has at that moment, and it has no line feed in it, so there are as
many lines as evaluations. -/
theorem prints_are_lines (lib : Library) (p : Place) (scope : Scope) (heap : Heap) (meter : Meter)
    (earlier : String) (o : Outcome) (hp : lib.ReadAt p)
    (hscope : scope.All (Value.Within fun _ => lib.ReadAt))
    (h : Evaluates lib p ⟨scope, heap, meter, .buffer earlier⟩ o) :
    ∃ log : List Print,
      (∀ c, c ∈ log ↔
        c.Completes lib { control := .enter p, state := ⟨scope, heap, meter, .buffer earlier⟩ }) ∧
      log.Nodup ∧
      (log.Pairwise fun c c' => Machine.Reaches lib c.moment c'.moment) ∧
      o.state.printer = .buffer (earlier ++ Print.text lib log) ∧
      (∀ c ∈ log, '\n' ∉ (c.line lib).toList) ∧
      (Print.text lib log).toList.count '\n' = log.length := by
  let start : Machine := { control := .enter p, state := ⟨scope, heap, meter, .buffer earlier⟩ }
  let I : Invariant lib := .ofPlaces lib.ReadAt fun hp _ _ => hp
  have hI : I.Holds start := Invariant.holds_start hp hscope
  obtain ⟨log, hlog, hprinter⟩ := Print.exists_isLog rfl hI h.ends .refl
  have hmem : ∀ c, c ∈ log ↔ c.Completes lib start := by
    intro c
    rw [hlog.mem_iff]
    exact and_iff_left_of_imp fun hc => hc.reaches
  have hlines : ∀ c ∈ log, '\n' ∉ (c.line lib).toList := by
    intro c hc
    have hv : c.value.Within fun _ => lib.ReadAt :=
      (hI.reaches ((hmem c).1 hc).reaches).printed c.printed?_moment
    exact Value.newline_not_mem_render hv c.state.heap
  exact ⟨log, hmem, hlog.nodup, hlog.ordered, hprinter, hlines, Print.count_newline_text hlines⟩

theorem prints_are_lines_failing :
    ∃ (lib : Library) (o : Outcome) (log : List Print),
      let s : State := ⟨(Scope.bind {} "a" (.array 0)).bind "f" (.deferred .subroutine ⟨1, 2⟩),
        ⟨#[#[0]]⟩, {}, .buffer "> "⟩
      Program.read .standard "b print f print prog2 a print 7 0 a setv a print prog4" =
        .ok ⟨lib.graph 0, 13⟩ ∧
      Program.read .standard "x y +" = .ok ⟨lib.graph 1, 2⟩ ∧
      Evaluates lib ⟨0, 13⟩ s o ∧ o.result = .error (.of (.missingVariable "b") (some .print)) ∧
      (∀ c, c ∈ log ↔ c.Completes lib { control := .enter ⟨0, 13⟩, state := s }) ∧
      log.length = 3 ∧
      Print.text lib log = "[0.0]\n[7.0]\n<subroutine (+ y x)>\n" := by
  let lib : Library := ⟨#[#[.var "b", .apply .print [0], .var "f", .apply .print [2],
    .apply .prog2 [3, 1], .var "a", .apply .print [5], .num 7, .num 0, .var "a",
    .apply .store [9, 8, 7], .var "a", .apply .print [11], .apply .prog4 [12, 10, 6, 4]],
    #[.var "x", .var "y", .apply .add [1, 0]]]⟩
  let s : State := ⟨(Scope.bind {} "a" (.array 0)).bind "f" (.deferred .subroutine ⟨1, 2⟩),
    ⟨#[#[0]]⟩, {}, .buffer "> "⟩
  have hread : Program.read .standard "b print f print prog2 a print 7 0 a setv a print prog4" =
      .ok ⟨lib.graph 0, 13⟩ := by decide +kernel
  have hread' : Program.read .standard "x y +" = .ok ⟨lib.graph 1, 2⟩ := by decide +kernel
  have hrun : (evaluate 60 lib ⟨0, 13⟩ s).map (fun o => (o.result, o.state.printer)) =
      some (.error (.of (.missingVariable "b") (some .print)),
        .buffer "> [0.0]\n[7.0]\n<subroutine (+ y x)>\n") := by
    decide +kernel
  obtain ⟨o, ho, he⟩ := Option.map_eq_some_iff.1 hrun
  obtain ⟨hresult, hprinted⟩ := Prod.mk.inj he
  have hscope : s.scope.All (Value.Within fun _ => lib.ReadAt) :=
    (Scope.all_empty.bind "a" trivial).bind "f" ⟨.standard, _, 2, hread'⟩
  obtain ⟨log, hmem, _, _, hprinter, _, hcount⟩ := prints_are_lines lib ⟨0, 13⟩ s.scope s.heap s.meter
    "> " o ⟨.standard, _, 13, hread⟩ hscope ⟨60, ho⟩
  have htext : Print.text lib log =
      "[0.0]\n[7.0]\n<subroutine (+ y x)>\n" := by
    rw [hprinted, Printer.buffer.injEq] at hprinter
    exact (String.append_right_inj "> ").1 hprinter.symm
  refine ⟨lib, o, log, hread, hread', ⟨60, ho⟩, hresult, hmem, ?_, htext⟩
  rw [← hcount, htext]
  decide +kernel

end ReversePolish
