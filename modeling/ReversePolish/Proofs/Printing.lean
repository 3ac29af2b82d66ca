import ReversePolish.Proofs.Legibility

namespace ReversePolish

/-- Neither the counting of a node nor any effect takes this away from a state. -/
structure State.Lasting (P : State → Prop) : Prop where
  tick : ∀ s, P s → P s.tick
  apply : ∀ s e, P s → P (s.apply e)

namespace Machine

variable {lib : Library} {m m' : Machine}

section States

variable {Q : State → Prop}

theorem state_settle {graph : Nat} {op : Operation} {frames : List Frame} {s : State} {r : Response}
    (hs : Q s) (hr : r.Does fun e => Q (s.apply e)) :
    (settle graph op frames s r).All (fun m => Q m.state) fun o => Q o.state := by
  match r with
  | .ok (effect, .await place pending) => exact hr
  | .ok (effect, .finish v) => exact hr
  | .error cause => exact hs

theorem state_step (hcharged : Q m.charged) (entered : ∀ e, e.Immediate → Q (m.charged.apply e))
    (resumed : ∀ v f frames e, m.control = .deliver v → m.frames = f :: frames → f.pending.MayDo e →
      Q (m.charged.apply e)) :
    (m.step lib).All (fun m => Q m.state) fun o => Q o.state := by
  obtain ⟨control, frames, s⟩ := m
  cases control with
  | enter p =>
    have hs : Q s.tick := hcharged
    simp only [step]
    cases s.tick.meter.overrun? with
    | some budget => exact hs
    | none =>
      exact visit_cases (fun _ => hs) (fun _ => hs) (fun _ _ _ _ => hs) (fun _ => hs)
        fun _ _ _ => state_settle hs (Frame.does_enter.imp entered)
  | deliver v =>
    cases frames with
    | nil => exact hcharged
    | cons f frames =>
      exact state_settle hcharged (Frame.does_resume.imp fun e => resumed v f frames e rfl rfl)

end States

theorem hangs_congr (hprinted : m'.printed? = m.printed?)
    (hinspected : m'.inspected? lib = m.inspected? lib) : m'.Hangs lib ↔ m.Hangs lib := by
  have hwrites : ∀ q, m'.Writes lib q ↔ m.Writes lib q := by
    intro q
    constructor
    · intro h
      cases h with
      | printed hv => exact .printed (hprinted ▸ hv)
      | refused hq hn hvar => exact .refused (hinspected ▸ hq) hn hvar
    · intro h
      cases h with
      | printed hv => exact .printed (hprinted.trans hv)
      | refused hq hn hvar => exact .refused (hinspected.trans hq) hn hvar
  simp only [Hangs, hwrites]

end Machine

theorem State.Lasting.charged {P : State → Prop} (hP : State.Lasting P) {m : Machine}
    (hm : P m.state) : P m.charged := by
  obtain ⟨control, frames, s⟩ := m
  cases control with
  | enter p => exact hP.tick s hm
  | deliver v => exact hm

theorem Machine.lasting_step {P : State → Prop} (hP : State.Lasting P) {lib : Library} {m : Machine}
    (hm : P m.state) : (m.step lib).All (fun m => P m.state) fun o => P o.state := by
  have hcharged : P m.charged := hP.charged hm
  exact state_step hcharged (fun e _ => hP.apply _ e hcharged) fun _ _ _ e _ _ _ => hP.apply _ e hcharged

theorem State.Lasting.of_evaluates {P : State → Prop} {lib : Library} {place : Place} {s : State}
    {o : Outcome} (hP : Lasting P) (h : Evaluates lib place s o) (hs : P s) : P o.state :=
  Machine.run_invariant (fun _ => Machine.lasting_step hP) h.ends hs

namespace Disguise

variable (φ : Disguise) {lib : Library} {m : Machine} {p : Place} {s : State} {o' : Outcome}

theorem visited?_machine (h : (φ.state m.charged).meter.overrun? = m.charged.meter.overrun?) :
    (φ.machine m).visited? = m.visited? := by
  obtain ⟨control, frames, s⟩ := m
  cases control with
  | enter p =>
    change (φ.state s.tick).meter.overrun? = s.tick.meter.overrun? at h
    simp only [Machine.visited?, machine, tick_state, h]
  | deliver v => rfl

theorem hangs_machine (h : (φ.state m.charged).meter.overrun? = m.charged.meter.overrun?) :
    (φ.machine m).Hangs lib ↔ m.Hangs lib := by
  refine Machine.hangs_congr rfl ?_
  rw [Machine.inspected?, Machine.inspected?, φ.visited?_machine h]
  rfl

section Runs

variable {P : State → Prop} (hP : State.Lasting P)
  (hφ : ∀ s, P s → (φ.state s).meter.overrun? = s.meter.overrun?)

include hP hφ

theorem rel_step (hm : P m.state) :
    Turn.Rel (fun m m' => P m.state ∧ m' = φ.machine m) (fun o o' => o' = φ.outcome o)
      (m.step lib) ((φ.machine m).step lib) := by
  rw [φ.step_machine lib (hφ _ (hP.charged hm))]
  have hstep : (m.step lib).All (fun m => P m.state) fun o => P o.state := Machine.lasting_step hP hm
  cases hturn : m.step lib with
  | next n =>
    rw [hturn] at hstep
    exact .next ⟨hstep, rfl⟩
  | done o => exact .done rfl

theorem returns_iff (hs : P s) :
    Returns lib p (φ.state s) o' ↔ ∃ o, Returns lib p s o ∧ o' = φ.outcome o := by
  have halike : ((∃ o, Returns lib p s o) ↔ ∃ o', Returns lib p (φ.state s) o') ∧
      ∀ o o', Returns lib p s o → Returns lib p (φ.state s) o' → o' = φ.outcome o := by
    refine Machine.Returns.alike (R := fun m m' => P m.state ∧ m' = φ.machine m) ?_ ?_ ⟨hs, rfl⟩
    · rintro m _ ⟨hm, rfl⟩
      exact φ.hangs_machine (hφ _ (hP.charged hm))
    · rintro m _ ⟨hm, rfl⟩ _
      exact φ.rel_step hP hφ hm
  obtain ⟨hboth, hsame⟩ := halike
  constructor
  · intro ho'
    obtain ⟨o, ho⟩ := hboth.2 ⟨o', ho'⟩
    exact ⟨o, ho, hsame o o' ho ho'⟩
  · rintro ⟨o, ho, rfl⟩
    obtain ⟨o', ho'⟩ := hboth.1 ⟨o, ho⟩
    obtain rfl := hsame o o' ho ho'
    exact ho'

end Runs

end Disguise

namespace Printer

def append (p : Printer) (text : String) : Printer :=
  match p with
  | .buffer captured => .buffer (captured ++ text)
  | .silent => .silent
  | .terminal pending => .terminal (pending ++ text)

@[simp] theorem append_empty (p : Printer) : p.append "" = p := by
  cases p <;> simp [append]

theorem append_append (p : Printer) (text more : String) :
    (p.append text).append more = p.append (text ++ more) := by
  cases p <;> simp [append, String.append_assoc]

theorem println_eq_append (p : Printer) (line : String) : p.println line = p.append (line ++ "\n") := by
  cases p <;> simp [append, println, String.append_assoc]

def release (next : Printer) : Printer → Printer
  | .buffer captured => next.append captured
  | .silent => .silent
  | .terminal pending => .terminal pending

theorem release_println (next p : Printer) (line : String) :
    (next.release p).println line = next.release (p.println line) := by
  cases p with
  | buffer captured =>
    simp only [release, println_eq_append, append_append]
    rfl
  | silent | terminal => rfl

end Printer

def Disguise.release (next : Printer) : Disguise where
  state s := { s with printer := next.release s.printer }
  scope_state _ := rfl
  heap_state _ := rfl
  tick_state _ := rfl
  apply_state s e := by
    cases e with
    | println line => simp only [State.apply, Printer.release_println]
    | none | bind | bindZeros | store => rfl

theorem lasting_buffer : State.Lasting fun s => ∃ text, s.printer = .buffer text where
  tick _ hs := hs
  apply s e hs := by
    obtain ⟨text, htext⟩ := hs
    cases e with
    | println line => exact ⟨text ++ line ++ "\n", by simp [State.apply, htext, Printer.println]⟩
    | none | bind | bindZeros | store => exact ⟨text, htext⟩

theorem returns_printer_iff {lib : Library} {p : Place} {scope : Scope} {heap : Heap} {meter : Meter}
    {printer : Printer} {o : Outcome} :
    Returns lib p ⟨scope, heap, meter, printer⟩ o ↔ ∃ result scope' heap' meter' text,
      Returns lib p ⟨scope, heap, meter, .buffer ""⟩
        ⟨result, ⟨scope', heap', meter', .buffer text⟩⟩ ∧
      o = ⟨result, ⟨scope', heap', meter', printer.append text⟩⟩ := by
  have hstate : (Disguise.release printer).state ⟨scope, heap, meter, .buffer ""⟩ =
      ⟨scope, heap, meter, printer⟩ := by
    simp [Disguise.release, Printer.release]
  rw [← hstate, (Disguise.release printer).returns_iff lasting_buffer (fun _ _ => rfl) ⟨"", rfl⟩]
  constructor
  · rintro ⟨⟨result, scope', heap', meter', printer'⟩, ho, rfl⟩
    obtain ⟨text, rfl⟩ : ∃ text, printer' = .buffer text :=
      lasting_buffer.of_evaluates ho.evaluates ⟨"", rfl⟩
    exact ⟨result, scope', heap', meter', text, ho, rfl⟩
  · rintro ⟨result, scope', heap', meter', text, ho, rfl⟩
    exact ⟨_, ho, rfl⟩

/-- With a buffer, without a printer and at the terminal a program returns or not alike. Its result,
the bindings, the arrays and the count of the steps are the same then, a buffer keeps what it had
and gets the text that the terminal gets, and a silent printer gets none. -/
theorem output_is_write_only (lib : Library) (p : Place) (scope : Scope) (heap : Heap)
    (meter : Meter) :
    (∀ printer o, ¬ Returns lib p ⟨scope, heap, meter, printer⟩ o) ∨
    ∃ (result : Except Fault Value) (scope' : Scope) (heap' : Heap) (meter' : Meter) (text : String),
      (∀ earlier o, Returns lib p ⟨scope, heap, meter, .buffer earlier⟩ o ↔
        o = ⟨result, ⟨scope', heap', meter', .buffer (earlier ++ text)⟩⟩) ∧
      (∀ o, Returns lib p ⟨scope, heap, meter, .silent⟩ o ↔
        o = ⟨result, ⟨scope', heap', meter', .silent⟩⟩) ∧
      (∀ pending o, Returns lib p ⟨scope, heap, meter, .terminal pending⟩ o ↔
        o = ⟨result, ⟨scope', heap', meter', .terminal (pending ++ text)⟩⟩) ∧
      Printer.silent.captured = "" := by
  by_cases h : ∃ o, Returns lib p ⟨scope, heap, meter, .buffer ""⟩ o
  · obtain ⟨o, ho⟩ := h
    obtain ⟨result, scope', heap', meter', text, hbuffer, _⟩ := returns_printer_iff.1 ho
    have hall : ∀ printer o, Returns lib p ⟨scope, heap, meter, printer⟩ o ↔
        o = ⟨result, ⟨scope', heap', meter', printer.append text⟩⟩ := by
      intro printer o
      have ho' : Returns lib p ⟨scope, heap, meter, printer⟩
          ⟨result, ⟨scope', heap', meter', printer.append text⟩⟩ :=
        returns_printer_iff.2 ⟨_, _, _, _, _, hbuffer, rfl⟩
      exact ⟨fun ho => ho.unique ho', fun he => he ▸ ho'⟩
    exact .inr ⟨result, scope', heap', meter', text, fun earlier => hall (.buffer earlier),
      hall .silent, fun pending => hall (.terminal pending), rfl⟩
  · refine .inl fun printer o ho => h ?_
    obtain ⟨_, _, _, _, _, hbuffer, _⟩ := returns_printer_iff.1 ho
    exact ⟨_, hbuffer⟩

theorem output_is_write_only_failing :
    ∃ lib : Library,
      let o (printer : Printer) : Outcome :=
        ⟨.error (.of (.missingVariable "y") (some .prog2)), ⟨{}, {}, ⟨none, 4⟩, printer⟩⟩
      Returns lib ⟨0, 3⟩ ⟨{}, {}, {}, .buffer "x"⟩ (o (.buffer "xnop\n")) ∧
      Returns lib ⟨0, 3⟩ ⟨{}, {}, {}, .silent⟩ (o .silent) ∧
      Returns lib ⟨0, 3⟩ ⟨{}, {}, {}, .terminal "z"⟩ (o (.terminal "znop\n")) := by
  let g : Graph := #[.var "y", .apply .nop [], .apply .print [1], .apply .prog2 [2, 0]]
  let lib : Library := Library.add {} g
  have hread : Program.read .standard "y nop print prog2" = .ok ⟨g, 3⟩ := rfl
  have hplace : lib.Descends ⟨0, 3⟩ :=
    Library.descends_next {} (Program.wellFormed_of_read hread).1.descending 3
  have hscope : Scope.Descends lib {} := Scope.all_empty
  have hbase : Returns lib ⟨0, 3⟩ ⟨{}, {}, {}, .buffer ""⟩
      ⟨.error (.of (.missingVariable "y") (some .prog2)), ⟨{}, {}, ⟨none, 4⟩, .buffer "nop\n"⟩⟩ :=
    (Library.legible hplace hscope).returns ⟨20, rfl⟩
  obtain hnone | ⟨result, scope, heap, meter, text, hbuffer, hsilent, hterminal, _⟩ :=
    output_is_write_only lib ⟨0, 3⟩ {} {} {}
  · exact absurd hbase (hnone _ _)
  · have he := (hbuffer "" _).1 hbase
    simp only [String.empty_append, Outcome.mk.injEq, State.mk.injEq, Printer.buffer.injEq] at he
    obtain ⟨rfl, rfl, rfl, rfl, rfl⟩ := he
    exact ⟨lib, (hbuffer "x" _).2 rfl, (hsilent _).2 rfl, (hterminal "z" _).2 rfl⟩

end ReversePolish
