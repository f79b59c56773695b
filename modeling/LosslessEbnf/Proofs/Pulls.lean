import LosslessEbnf.Proofs.Causes
import LosslessEbnf.Proofs.Refusals
import LosslessEbnf.Proofs.RoundTrip

/-!
# Calls to the source

A run asks its source for one character at a time, and it does not ask again after a reply without
characters.

## Main Definitions

* `Call.brings` — a call whose reply holds characters
* `Logged.reading` — keeps a log of the calls to any source
* `Disciplined`, `Completed` — the logs of runs, and those of runs that succeed

## Main Statements

* `Phase.Pulls.tick` — every step and every reply keeps to the discipline
* `source_run_of_end` — whatever is open, nothing is asked for behind the end of the input
* `disciplined_of_parse` — the calls of all runs

## Design Notes

Many productions take a character without a look at what is open around them, also the last one of
the input. Then the source is asked once more, and its reply is the last one: behind the end of the
input no step takes a character (`step_ne_next`), so the machine never comes to ask again.
-/

namespace LosslessEbnf

/-! ### Logs -/

namespace Call

/-- Whether the reply holds characters. -/
def brings (call : Call) : Bool :=
  match call.reply with
  | .ok text => text != ""
  | .error _ => false

/-- Whether the reply is empty. -/
def ends (call : Call) : Bool :=
  match call.reply with
  | .ok text => text == ""
  | .error _ => false

end Call

/-- One character is asked for at a time, and the first reply without characters is the last one. -/
def Disciplined (log : List Call) : Prop :=
  (∀ call ∈ log, call.asked = 1) ∧
    ∀ front call back, log = front ++ call :: back → call.brings = false → back = []

/-- Just one reply is empty, and all others hold characters. -/
def Completed (log : List Call) : Prop :=
  log.countP Call.ends = 1 ∧ log.length = log.countP Call.brings + 1

/-- Asks for one character each time and gets some. -/
def Feeding (log : List Call) : Prop := ∀ call ∈ log, call.asked = 1 ∧ call.brings = true

/-- The input has ended with the last call. -/
def Exhausted (log : List Call) : Prop := ∃ front, Feeding front ∧ log = front ++ [⟨1, .ok ""⟩]

variable {log front : List Call} {call : Call}

theorem Call.ends_of_brings (h : call.brings = true) : call.ends = false := by
  unfold brings at h
  unfold ends
  split at h
  · exact beq_eq_false_iff_ne.mpr (bne_iff_ne.mp h)
  · cases h

theorem feeding_nil : Feeding [] := nofun

theorem Feeding.snoc (h : Feeding log) (hasked : call.asked = 1) (hbrings : call.brings = true) :
    Feeding (log ++ [call]) := by
  intro other hother
  rcases List.mem_append.mp hother with hother | hother
  · exact h other hother
  · rw [List.mem_singleton.mp hother]
    exact ⟨hasked, hbrings⟩

/-- After calls that brought characters any call may be the last one, whether it brings more, ends
the text or fails. -/
theorem Feeding.disciplined_snoc (h : Feeding log) (hasked : call.asked = 1) :
    Disciplined (log ++ [call]) := by
  constructor
  · intro other hother
    rcases List.mem_append.mp hother with hother | hother
    · exact (h other hother).1
    · rw [List.mem_singleton.mp hother]
      exact hasked
  · intro front other back heq hends
    rcases List.eq_nil_or_concat back with rfl | ⟨back, last, rfl⟩
    · rfl
    -- the call is not the last one, so it is one of those that brought characters
    · rw [List.concat_eq_append, ← List.cons_append, ← List.append_assoc] at heq
      have hlog := (List.append_inj_left' heq rfl).symm
      have hbrings := (h other (hlog ▸ List.mem_append_right front List.mem_cons_self)).2
      rw [hends] at hbrings
      cases hbrings

theorem Feeding.disciplined (h : Feeding log) : Disciplined log := by
  refine ⟨fun call hcall => (h call hcall).1, fun front call back heq hends => ?_⟩
  have hbrings := (h call (heq ▸ List.mem_append_right front List.mem_cons_self)).2
  rw [hends] at hbrings
  cases hbrings

theorem Exhausted.disciplined (h : Exhausted log) : Disciplined log := by
  obtain ⟨front, hfront, rfl⟩ := h
  exact hfront.disciplined_snoc rfl

theorem Exhausted.completed (h : Exhausted log) : Completed log := by
  obtain ⟨front, hfront, rfl⟩ := h
  have hbrings : front.countP Call.brings = front.length :=
    List.countP_eq_length.mpr fun call hcall => (hfront call hcall).2
  have hends : front.countP Call.ends = 0 :=
    List.countP_eq_zero.mpr fun call hcall =>
      ne_true_of_eq_false (Call.ends_of_brings (hfront call hcall).2)
  constructor
  · rw [List.countP_append, hends]
    rfl
  · rw [List.countP_append, hbrings, List.length_append]
    rfl

/-! ### Runs with a log -/

/-- Keeps a log of the calls to a source. -/
def Logged.reading {σ : Type} (read : Nat → σ → Except Fault String × σ) (n : Nat)
    (s : Logged σ) : Except Fault String × Logged σ :=
  let (reply, source) := read n s.source
  (reply, ⟨source, s.log ++ [⟨n, reply⟩]⟩)

namespace Phase

variable {σ : Type} {read : Nat → σ → Except Fault String × σ} {limit fuel : Nat}

/-- The source as it is left. -/
def source : Phase σ → σ
  | asking _ source | stepping _ _ _ source | finished _ source => source

/-- The source was called with discipline so far, and it has ended if the machine sees the end. -/
def Pulls : Phase (Logged σ) → Prop
  | asking _ source => Feeding source.log
  | stepping ⟨some _, _⟩ _ _ source => Feeding source.log
  | stepping ⟨none, _⟩ _ _ source => Exhausted source.log
  | finished (.ok _) source => Exhausted source.log
  | finished (.error _) source => Disciplined source.log

theorem Pulls.disciplined {phase : Phase (Logged σ)} (h : phase.Pulls) :
    Disciplined phase.source.log := by
  match phase with
  | asking _ source => exact Feeding.disciplined h
  | stepping ⟨some _, _⟩ _ _ source => exact Feeding.disciplined h
  | stepping ⟨none, _⟩ _ _ source => exact Exhausted.disciplined h
  | finished (.ok _) source => exact Exhausted.disciplined h
  | finished (.error _) source => exact h

/-- A reply that holds characters is fed to the machine, and any other one is the last. -/
theorem pulls_ofReply {config : Config} {source : Logged σ} (h : Feeding source.log) :
    (ofReply config (Logged.reading read 1 source)).Pulls := by
  unfold Logged.reading
  match read 1 source.source with
  | (.error fault, rest) => exact h.disciplined_snoc rfl
  | (.ok text, rest) =>
    cases htext : text.toList with
    | nil =>
      obtain rfl := String.toList_eq_nil_iff.mp htext
      exact ⟨source.log, h, rfl⟩
    | cons c more =>
      rw [ofReply, htext]
      refine h.snoc rfl (bne_iff_ne.mpr ?_)
      rintro rfl
      cases htext

/-- **Step lemma.** A run keeps to the discipline, and it ends well only where the source ended. -/
theorem Pulls.tick {phase : Phase (Logged σ)} (h : phase.Pulls) (htidied : phase.Tidied) :
    (phase.tick (Logged.reading read) limit).Pulls := by
  cases phase with
  | asking config source => exact pulls_ofReply h
  | finished result source => exact h
  | stepping sight tree frames source =>
    have hstep : (step limit sight tree frames).Tidies sight.ahead :=
      tidies_step htidied.1 htidied.2
    obtain ⟨ahead, here⟩ := sight
    rw [Phase.tick]
    cases hmove : step limit ⟨ahead, here⟩ tree frames with
    | again tree' frames' => cases ahead <;> exact h
    | next tree' frames' =>
      cases ahead with
      | none => exact absurd hmove step_ne_next
      | some c => exact h
    | accept tree' =>
      rw [hmove] at hstep
      obtain rfl : ahead = none := hstep
      exact h
    | reject tree' cause =>
      cases ahead with
      | none => exact Exhausted.disciplined h
      | some c => exact Feeding.disciplined h

/-- **Run lemma.** At any time of a run the log records calls as they should be. The induction is on
the steps, and the tidy stack is needed for the last one. -/
theorem Pulls.run {phase : Phase (Logged σ)} (h : phase.Pulls) (htidied : phase.Tidied) :
    (phase.run (Logged.reading read) limit fuel).Pulls := by
  induction fuel generalizing phase with
  | zero => exact h
  | succ fuel ih => exact ih (h.tick htidied) (htidied.tick _ _)

theorem pulls_start (source : σ) : (start (Logged.fresh source)).Pulls := feeding_nil

/-! ### The end of the input -/

/-- Whether the machine sees the end of the input, or the run is over. -/
def Done : Phase σ → Prop
  | asking .. => False
  | stepping sight .. => sight.ahead = none
  | finished .. => True

/-- Behind the end of the input the source is left alone, and it stays so. -/
theorem Done.tick {phase : Phase σ} (h : phase.Done) :
    (phase.tick read limit).Done ∧ (phase.tick read limit).source = phase.source := by
  cases phase with
  | asking config source => exact h.elim
  | finished result source => exact ⟨trivial, rfl⟩
  | stepping sight tree frames source =>
    obtain ⟨ahead, here⟩ := sight
    obtain rfl : ahead = none := h
    rw [Phase.tick]
    cases hmove : step limit ⟨none, here⟩ tree frames with
    | next tree' frames' => exact absurd hmove step_ne_next
    | again tree' frames' => exact ⟨rfl, rfl⟩
    | accept tree' => exact ⟨trivial, rfl⟩
    | reject tree' cause => exact ⟨trivial, rfl⟩

theorem Done.source_run {phase : Phase σ} (h : phase.Done) :
    (phase.run read limit fuel).source = phase.source := by
  induction fuel generalizing phase with
  | zero => rfl
  | succ fuel ih => exact (ih h.tick.1).trans h.tick.2

/-- Whatever productions are open, a reply without characters is the last one. -/
theorem source_run_of_end {config : Config} {source rest : σ} {reply : Except Fault String}
    (hread : read 1 source = (reply, rest)) (hends : (Call.mk 1 reply).brings = false) :
    ((asking config source).run read limit (fuel + 1)).source = rest := by
  rw [run, Phase.tick, hread]
  cases reply with
  | error fault => exact Done.source_run trivial
  | ok text =>
    obtain rfl : text = "" := by simpa [Call.brings] using hends
    exact Done.source_run rfl

end Phase

/-- **Pull discipline.** Whatever the source replies, be it endless or not, and at any time of a
run, one character was asked for each time, and there was no call after a reply without characters;
a run that succeeds made one call more than it got replies with characters. For a source as it is
read, this is true of its log, which does not change the result. And whatever productions are open
when a reply holds no characters, the source is left as it is. -/
theorem disciplined_of_parse :
    (∀ (σ : Type) (read : Nat → σ → Except Fault String × σ) (source : σ) (maxNesting fuel : Nat),
      Disciplined ((Phase.start (Logged.fresh source)).run (Logged.reading read) maxNesting
        fuel).source.log ∧
      ∀ tree rest, (Phase.start (Logged.fresh source)).run (Logged.reading read) maxNesting fuel =
        .finished (.ok tree) rest → Completed rest.log) ∧
    (∀ (σ : Type) [Source σ] (source : σ) (maxNesting : Nat),
      (parseFrom (Logged.fresh source) maxNesting).1 = parse source maxNesting ∧
      Disciplined (parseFrom (Logged.fresh source) maxNesting).2.log ∧
      ∀ tree, parse source maxNesting = .ok tree →
        Completed (parseFrom (Logged.fresh source) maxNesting).2.log) ∧
    ∀ (σ : Type) (read : Nat → σ → Except Fault String × σ) (config : Config) (source : σ)
      (maxNesting fuel : Nat), (Call.mk 1 (read 1 source).1).brings = false →
        ((Phase.asking config source).run read maxNesting (fuel + 1)).source =
          (read 1 source).2 := by
  have hruns : ∀ (σ : Type) (read : Nat → σ → Except Fault String × σ) (source : σ)
      (maxNesting fuel : Nat), ((Phase.start (Logged.fresh source)).run (Logged.reading read)
        maxNesting fuel).Pulls :=
    fun σ read source maxNesting fuel => (Phase.pulls_start source).run (Phase.tidied_start _)
  refine ⟨fun σ read source maxNesting fuel => ?_, fun σ _ source maxNesting => ?_, ?_⟩
  · have hpulls := hruns σ read source maxNesting fuel
    refine ⟨hpulls.disciplined, fun tree rest hrun => ?_⟩
    rw [hrun] at hpulls
    exact Exhausted.completed hpulls
  · obtain ⟨pieces, -, hyields⟩ := exists_yields (Logged.fresh source)
    have hpulls := hruns σ Source.read source maxNesting (10 * pieces + 4)
    have hresult : (parseFrom (Logged.fresh source) maxNesting).1 = parse source maxNesting :=
      drive_logged maxNesting .initial source []
    rw [show Logged.reading Source.read = Source.read from rfl,
      Phase.run_eq_parseFrom hyields maxNesting] at hpulls
    refine ⟨hresult, hpulls.disciplined, fun tree htree => ?_⟩
    rw [hresult, htree] at hpulls
    exact Exhausted.completed hpulls
  · intro σ read config source maxNesting fuel hends
    exact Phase.source_run_of_end rfl hends

/-- A reply of several characters, and a source that fails while a bracket is open. -/
theorem disciplined_of_parse_script :
    (∃ tree rest, (Phase.start (Logged.fresh (Script.mk [.ok "x", .ok "=a", .ok ";"]))).run
        (Logged.reading Source.read) 2 34 = .finished (.ok tree) rest ∧ Completed rest.log) ∧
    (∃ tree, parse (Script.mk [.ok "x", .ok "=a", .ok ";"]) 2 = .ok tree ∧
      Completed (parseFrom (Logged.fresh (Script.mk [.ok "x", .ok "=a", .ok ";"])) 2).2.log) ∧
    (Call.mk 1 (Source.read 1 (Script.mk [.error ⟨.other, "lost"⟩, .ok ")"])).1).brings = false ∧
      ((Phase.asking ⟨.empty, [.bracket .grouped 1 (.body none), .grammar true], ⟨1, 2⟩⟩
        (Script.mk [.error ⟨.other, "lost"⟩, .ok ")"])).run Source.read 2 8).source =
          Script.mk [.ok ")"] := by
  obtain ⟨tree, htree⟩ := exists_tree_of_isOk
    (show (parse (Script.mk [.ok "x", .ok "=a", .ok ";"]) 2).isOk = true by
      with_unfolding_all decide)
  have hyields : Yields Source.read (Logged.fresh (Script.mk [.ok "x", .ok "=a", .ok ";"])) 3 :=
    .piece rfl (by decide) (.piece rfl (by decide) (.piece rfl (by decide) (.ended rfl)))
  have hrun := Phase.run_eq_parseFrom hyields 2
  have hresult := (disciplined_of_parse.2.1 _ (Script.mk [.ok "x", .ok "=a", .ok ";"]) 2).1
  rw [hresult, htree] at hrun
  exact ⟨⟨tree, _, hrun, (disciplined_of_parse.1 _ Source.read _ 2 34).2 _ _ hrun⟩,
    ⟨tree, htree, (disciplined_of_parse.2.1 _ _ _).2.2 _ htree⟩,
    rfl, disciplined_of_parse.2.2 _ _ _ _ _ _ rfl⟩

end LosslessEbnf
