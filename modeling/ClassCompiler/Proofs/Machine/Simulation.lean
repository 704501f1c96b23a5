import ClassCompiler.Proofs.Machine.Carry

/-!
# The listing of a method follows its code

A method whose parameters have different names, and which sets no label of the sort that comparisons
set for themselves, is followed by its listing.  Started on the same object with the same arguments,
the machine goes from instruction to instruction as the code does, always with an empty stack and
the values of the variables in their slots; it asks the same questions of the same classes with the
same operands, goes on from the same answers, and returns the same value.

* `Started`: the machine before the first line.
* `frame_simulation`: the simulation, for a frame with its lines.
* `listing_simulates_code`: for every method that has a listing.
* `listing_runs_code`: whole runs.
-/

namespace ClassCompiler
namespace Meaning

open ThreeAddress Machine

variable {T : ClassTable} {F : Frame} {receiver : Reference} {lines : List (Line Op)}

/-! ## From instructions to the method -/

/-- What is found as the place of a label sets the label. -/
theorem label_of_labelIndex? {code : List Instr} {name : String} {place : Nat}
    (h : labelIndex? code name = some place) : code[place]? = some (.label name) := by
  obtain ⟨hlt, hlabel, -⟩ := List.findIdx?_eq_some_iff_getElem.mp h
  rw [List.getElem?_eq_getElem hlt]
  generalize code[place] = i at hlabel
  cases i with
  | label other => simpa [Instr.label?] using hlabel
  | _ => simp [Instr.label?] at hlabel

/-- The line of a label is where the instruction that sets it starts. -/
theorem lineOf?_label (hselect : selectAll T F 0 F.method.code = .ok lines)
    (hnodup : (labelsOfLines lines).Nodup) {name : String} {place : Nat}
    (h : labelIndex? F.method.code name = some place) :
    ∃ line, lineOf? lines name = some line ∧ StartsAt T F place line := by
  have hlabel := label_of_labelIndex? h
  obtain ⟨_, before, _, _, hbefore, -⟩ := selectAll_at hselect hlabel
  have hstarts : StartsAt T F place before.length := ⟨before, hbefore, rfl⟩
  obtain ⟨_, own, hown, hcode, -⟩ := hstarts.own hselect hlabel
  cases Except.ok.inj hown
  exact ⟨before.length, lineOf?_eq hnodup hcode.head, hstarts⟩

/-- **The lines of a frame follow its code**, if no label is set twice and no slot belongs to two
names. -/
theorem frame_simulation (hselect : selectAll T F 0 F.method.code = .ok lines)
    (hnodup : (labelsOfLines lines).Nodup) (hapart : F.slots.Apart (firstSlot F.method))
    (receiver : Reference) :
    Simulation (Point.turn receiver F.method.code) (MachineState.turn lines)
      (Together T F receiver) (SameQuestion T) SameAnswer := by
  rintro p ⟨_, _, slots⟩ ⟨line, hstarts, rfl, rfl, hholds⟩
  unfold Point.turn
  cases hi : F.method.code[p.place]? with
  | none =>
    -- Behind the last instruction there are no lines.
    refine ⟨_, .refl _, ?_⟩
    rw [MachineState.turn, hstarts.over hselect hi]
  | some i =>
    obtain ⟨_, own, hown, hcode, hnext⟩ := hstarts.own hselect hi
    have hcarries := select_carries hnodup hapart hholds hown hcode
    dsimp only
    cases hmove : moveOf .byFamily receiver p.vars i with
    | error fault =>
      rw [hmove] at hcarries
      cases fault with
      | divisionByZero => exact hcarries
      | stuck | raised _ | noReturn => exact trivial
    | ok move =>
      rw [hmove] at hcarries
      cases move with
      | next vars' =>
        obtain ⟨t, hsilently, hrests⟩ := hcarries
        exact ⟨t, hsilently, _, hnext, hrests⟩
      | stop result => exact hcarries
      | jump name =>
        unfold Point.afterMove
        dsimp only
        split
        · rename_i target htarget
          obtain ⟨line', hline', hstarts'⟩ := lineOf?_label hselect hnodup htarget
          obtain ⟨t, hsilently, hrests⟩ := hcarries line' hline'
          exact ⟨t, hsilently, line', hstarts', hrests⟩
        · exact trivial
      | ask r resume =>
        obtain ⟨t, q, resume', hsilently, hturn, hsame, hresume⟩ := hcarries
        refine ⟨t, q, resume', hsilently, hturn, hsame, fun answer answer' p' hanswer hp => ?_⟩
        dsimp only at hp
        split at hp
        · rename_i vars' hvars
          cases Option.some.inj hp
          obtain ⟨u, u', hu, hsilently', hrests⟩ := hresume answer answer' vars' hanswer hvars
          exact ⟨u, u', hu, hsilently', _, hnext, hrests⟩
        · cases hp

/-! ## The start -/

/-- The variables of a method that is called: the parameters have the arguments. -/
def startVars (m : Method) (args : List Value) : Vars := fun x =>
  ((m.params.map Var.name).zip args).lookup x

/-- The machine before the first line of a method that is called: the stack is empty, and the slots
have the receiver, unless the method is static, and then the arguments. -/
structure Started (m : Method) (receiver : Reference) (words : List Word) (s : MachineState) :
    Prop where
  line : s.line = 0
  stack : s.stack = []
  receiver : m.isStatic = false → s.slots 0 = some (.ref receiver)
  args : ∀ i w, words[i]? = some w → s.slots (firstSlot m + i) = some w

/-- What a parameter holds is the argument at its place. -/
theorem lookup_zip_eq_some {params : List Var} {args : List Value} {x : String} {v : Value}
    (h : ((params.map Var.name).zip args).lookup x = some v) :
    ∃ (i : Nat) (p : Var), params[i]? = some p ∧ p.name = x ∧ args[i]? = some v := by
  induction params generalizing args with
  | nil => cases h
  | cons p params ih =>
    cases args with
    | nil => cases h
    | cons a args =>
      rw [List.map_cons, List.zip_cons_cons, List.lookup_cons] at h
      split at h
      · rename_i hx
        exact ⟨0, p, rfl, (beq_iff_eq.mp hx).symm, h⟩
      · obtain ⟨i, q, hq, hname, hi⟩ := ih h
        exact ⟨i + 1, q, hq, hname, hi⟩

theorem SameWords.getElem? {args : List Value} {words : List Word} (h : SameWords args words)
    {i : Nat} {v : Value} (hv : args[i]? = some v) :
    ∃ w, words[i]? = some w ∧ v.word? = some w := by
  induction h generalizing i with
  | nil => cases hv
  | @cons a w args words haw _ ih =>
    cases i with
    | zero =>
      cases Option.some.inj hv
      exact ⟨w, rfl, haw⟩
    | succ i => exact ih hv

/-- The machine and the code start together. -/
theorem together_start {budget : Nat} {m : Method} (hF : Frame.build budget m = .ok F)
    (hparams : (m.params.map Var.name).Nodup) {args : List Value} {words : List Word}
    (hwords : SameWords args words) {s : MachineState} (hs : Started m receiver words s) :
    Together T F receiver ⟨0, startVars m args⟩ s := by
  obtain ⟨rfl, hslots, -⟩ := Frame.build_eq_ok hF
  refine ⟨0, .zero, hs.stack, hs.line, fun x slot v hslot hv => ?_, hs.receiver⟩
  obtain ⟨i, p, hp, rfl, hi⟩ := lookup_zip_eq_some hv
  obtain ⟨slot', hslot', hindex⟩ := allocate_params hslots hparams hp
  cases hslot.symm.trans hslot'
  obtain ⟨w, hw, hword⟩ := hwords.getElem? hi
  exact ⟨w, hword, hindex ▸ hs.args i w hw⟩

/-- A label that does not start like those of comparisons is none of them. -/
theorem ordinary_of_not_isPrefix {name : String}
    (htrue : ¬ "CMP_TRUE_".toList <+: name.toList) (hend : ¬ "CMP_END_".toList <+: name.toList) :
    Ordinary name := by
  have hstarts (text : String) (k : Nat) : text.toList <+: (text ++ toString k).toList := by
    rw [String.toList_append]
    exact List.prefix_append ..
  intro k
  constructor
  · rintro rfl
    exact htrue (hstarts "CMP_TRUE_" k)
  · rintro rfl
    exact hend (hstarts "CMP_END_" k)

/-- Wherever the code and the machine are together, the machine follows. -/
theorem listing_simulation {budget : Nat} {m : Method} {listing : Listing Op}
    (hF : Frame.build budget m = .ok F) (hlisting : F.listing T = .ok listing)
    (hlabels : ∀ name ∈ labelsOf m.code,
      ¬ "CMP_TRUE_".toList <+: name.toList ∧ ¬ "CMP_END_".toList <+: name.toList)
    (receiver : Reference) :
    Simulation (Point.turn receiver m.code) (MachineState.turn listing.lines)
      (Together T F receiver) (SameQuestion T) SameAnswer := by
  obtain ⟨rfl, hslots, hnodup⟩ := Frame.build_eq_ok hF
  obtain ⟨lines, hselect, hlisting⟩ := except_bind_eq_ok.mp hlisting
  cases Except.ok.inj hlisting
  have hordinary : ∀ name ∈ labelsOf F.method.code, Ordinary name := fun name hname =>
    ordinary_of_not_isPrefix (hlabels name hname).1 (hlabels name hname).2
  exact frame_simulation hselect (selectAll_labels hselect hnodup hordinary)
    (allocate_apart hslots) receiver

/-- **The listing of a method simulates its code.**  Both start together, and wherever they are
together, the machine follows the turn of the code. -/
theorem listing_simulates_code (T : ClassTable) (budget : Nat) (m : Method)
    {listing : Listing Op} (hF : Frame.build budget m = .ok F)
    (hlisting : F.listing T = .ok listing) (hparams : (m.params.map Var.name).Nodup)
    (hlabels : ∀ name ∈ labelsOf m.code,
      ¬ "CMP_TRUE_".toList <+: name.toList ∧ ¬ "CMP_END_".toList <+: name.toList)
    (receiver : Reference) :
    (∀ args words s, SameWords args words → Started m receiver words s →
      Together T F receiver ⟨0, startVars m args⟩ s) ∧
    Simulation (Point.turn receiver m.code) (MachineState.turn listing.lines)
      (Together T F receiver) (SameQuestion T) SameAnswer := by
  constructor
  · intro args words s hwords hs
    exact together_start hF hparams hwords hs
  · exact listing_simulation hF hlisting hlabels receiver

/-- A method that divides in a loop while a comparison holds, and tells its object of each round. -/
def divideMethod : Method where
  name := "divide"
  isStatic := false
  params := [⟨"n", .int⟩, ⟨"loud", .bool⟩]
  locals := [⟨"rest", .int⟩]
  result := .int
  code := [
    .assign ⟨"rest", .int⟩ (.operand (.int 1000)),
    .label "L0",
    .assign ⟨"t0", .bool⟩ (.binary .gt (.var ⟨"rest", .int⟩) (.var ⟨"n", .int⟩)),
    .branch (.var ⟨"t0", .bool⟩) true "L1",
    .call ⟨.virtual, .this "Divider", "round", [.var ⟨"rest", .int⟩, .var ⟨"loud", .bool⟩],
      [.int, .bool], .int⟩,
    .assign ⟨"rest", .int⟩ (.binary .div (.var ⟨"rest", .int⟩) (.var ⟨"n", .int⟩)),
    .jump "L0",
    .label "L1",
    .ret (some (.var ⟨"rest", .int⟩))]

theorem divideMethod_simulated :
    ∃ T F listing, Frame.build 99 divideMethod = .ok F ∧ F.listing T = .ok listing ∧
      Together T F (.address 1) ⟨0, startVars divideMethod [.int 7, .bool true]⟩
        ⟨0, [], fun i => [Word.ref (.address 1), .int 7, .int 1][i]?⟩ ∧
      Simulation (Point.turn (.address 1) divideMethod.code) (MachineState.turn listing.lines)
        (Together T F (.address 1)) (SameQuestion T) SameAnswer := by
  have hstarted : Started divideMethod (.address 1) [.int 7, .int 1]
      ⟨0, [], fun i => [Word.ref (.address 1), .int 7, .int 1][i]?⟩ :=
    ⟨rfl, rfl, fun _ => rfl, fun i w hw => by
      rw [firstSlot, if_neg (by decide), Nat.add_comm]
      exact hw⟩
  obtain ⟨hstart, hsimulation⟩ := listing_simulates_code ⟨"Divider", none, [], [], []⟩ 99
    divideMethod rfl rfl (by decide) (by decide) (.address 1)
  exact ⟨_, _, _, rfl, rfl,
    hstart [.int 7, .bool true] [.int 7, .int 1] _ (.cons rfl (.cons rfl .nil)) hstarted,
    hsimulation⟩

/-- **Whole runs.**  What the code asks from its start on, the machine asks, and gets to where the
code gets; where the code returns there, the machine returns the same. -/
theorem listing_runs_code {budget : Nat} {m : Method} {listing : Listing Op}
    (hF : Frame.build budget m = .ok F) (hlisting : F.listing T = .ok listing)
    (hparams : (m.params.map Var.name).Nodup)
    (hlabels : ∀ name ∈ labelsOf m.code,
      ¬ "CMP_TRUE_".toList <+: name.toList ∧ ¬ "CMP_END_".toList <+: name.toList)
    {args : List Value} {words : List Word} (hwords : SameWords args words) {s : MachineState}
    (hs : Started m receiver words s) {events : List ((Instr × Request Value) × Option Value)}
    {p : Point} (hrun : Runs (Point.turn receiver m.code) ⟨0, startVars m args⟩ events p)
    (hanswers : ∀ event ∈ events, ∃ answer, SameAnswer event.2 answer) :
    ∃ events' s', Runs (MachineState.turn listing.lines) s events' s' ∧
      Together T F receiver p s' ∧ SameEvents (SameQuestion T) SameAnswer events events' ∧
      ∀ result, p.turn receiver m.code = .stop result →
        ∃ s'' result', Silently (MachineState.turn listing.lines) s' s'' ∧
          s''.turn listing.lines = .stop result' ∧ SameAnswer result result' := by
  have hsimulation := listing_simulation hF hlisting hlabels receiver
  obtain ⟨events', s', hrun', htogether, hevents⟩ :=
    hsimulation.run hrun hanswers (together_start hF hparams hwords hs)
  refine ⟨events', s', hrun', htogether, hevents, fun result hstop => ?_⟩
  have hfollowed := hsimulation p s' htogether
  rw [hstop] at hfollowed
  exact hfollowed

end Meaning
end ClassCompiler
