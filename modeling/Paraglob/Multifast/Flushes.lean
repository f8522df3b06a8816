import Paraglob.Multifast.Received

/-!
# Flushes between the chunks

With `keep`, `multifast_rep_flush` hands over what is in the buffer and the replacement
goes on. The file shows that a client may do so at any time after the first chunk: the
blocks it receives get shorter, and their text stays the same. Before the first chunk
there is no callback yet, and the field for it was not written.
-/

namespace Multifast

open LongestSuffix Substitution

namespace ReplaceTrie

variable {κ : Type} {thiz : ReplaceTrie κ} {path : Nat → Bytes} {d : Dictionary}
variable {patts : List (AcPattern × Option Bytes)} {before h : Bytes} {marks : List (Mark UInt8)}
variable {cut : Nat}

/-- What a client calls before it ends the session. -/
inductive Call
  | replace (instr : Bytes) (mode : MfReplaceMode)
  | keep

/-- The chunks among the calls, with their modes. -/
def chunks : List Call → List (Bytes × MfReplaceMode)
  | [] => []
  | .replace instr mode :: calls => (instr, mode) :: chunks calls
  | .keep :: calls => chunks calls

@[simp] theorem chunks_nil : chunks [] = [] := rfl

@[simp] theorem chunks_replace (instr : Bytes) (mode : MfReplaceMode) (calls : List Call) :
    chunks (.replace instr mode :: calls) = (instr, mode) :: chunks calls := rfl

@[simp] theorem chunks_keep (calls : List Call) : chunks (.keep :: calls) = chunks calls := rfl

/-- The code behind a call. -/
def perform (thiz : ReplaceTrie κ) (callback : κ) : Call → Except Fault (ReplaceTrie κ)
  | .replace instr mode => do
      let (_, thiz) ← thiz.multifastReplace instr mode callback
      .ok thiz
  | .keep => thiz.multifastRepFlush true

def performEach (thiz : ReplaceTrie κ) (callback : κ) (calls : List Call) :
    Except Fault (ReplaceTrie κ) :=
  calls.foldlM (fun thiz call => thiz.perform callback call) thiz

theorem performEach_cons (callback : κ) (call : Call) (calls : List Call) :
    thiz.performEach callback (call :: calls) =
      thiz.perform callback call >>= fun thiz => thiz.performEach callback calls :=
  List.foldlM_cons

def performAll (thiz : ReplaceTrie κ) (callback : κ) (calls : List Call) :
    Except Fault (ReplaceTrie κ) := do
  let thiz ← thiz.performEach callback calls
  thiz.multifastRepFlush false

/-- All that the client has received. -/
def received (thiz : ReplaceTrie κ) : Bytes := thiz.repdata.delivered.flatMap Prod.snd

theorem received_of_session (session : thiz.Session path d before [] [] 0)
    (empty : thiz.repdata.buffer = []) : thiz.received = before := by
  have output := session.output_eq
  rwa [MfReplacementData.output, empty, List.append_nil] at output

/-- The run lemma of a session with flushes. -/
theorem Session.perform_spec (session : thiz.Session path d before h marks cut) {callback : κ}
    {calls : List Call} (begun : calls.head? = some .keep → thiz.repdata.cbf = some callback) :
    match d.sessionFault thiz.rtext h marks cut (chunks calls) with
    | some fault => thiz.performEach callback calls = .error fault
    | none =>
      ∃ thiz' cut', thiz.performEach callback calls = .ok thiz' ∧
        thiz'.Session path d before (h ++ ((chunks calls).map Prod.fst).flatten)
          (d.chosen thiz.rtext h marks (chunks calls)) cut' ∧
        (calls ≠ [] ∨ thiz.repdata.cbf = some callback →
          thiz'.repdata.cbf = some callback) := by
  induction calls generalizing thiz h marks cut with
  | nil =>
      refine ⟨thiz, cut, rfl, ?_, fun set => set.resolve_left (absurd rfl)⟩
      rw [chunks_nil, List.map_nil, List.flatten_nil, List.append_nil]
      exact session
  | cons call calls ih =>
      rw [performEach_cons]
      cases call with
      | keep =>
          -- A flush changes neither the session nor the chunks that are left.
          obtain ⟨thiz₁, ran₁, session₁, rtexts₁, callable₁, _⟩ :=
            session.multifastRepFlush_keep (begun rfl)
          have rest := ih session₁ fun _ => callable₁
          rw [rtext_congr rtexts₁] at rest
          rw [chunks_keep, perform, bind_of_ok ran₁]
          cases fails : d.sessionFault thiz.rtext h marks cut (chunks calls) with
          | some fault =>
              rw [fails] at rest
              exact rest
          | none =>
              rw [fails] at rest
              obtain ⟨thiz', cut', ran, session', callable⟩ := rest
              exact ⟨thiz', cut', ran, session', fun _ => callable (Or.inr callable₁)⟩
      | replace instr mode =>
          have step := session.multifastReplace_spec instr mode callback
          rw [chunks_replace, Dictionary.sessionFault]
          dsimp only at step ⊢
          cases here : d.chunkFault h ((d.marks thiz.rtext h instr).foldl mode.book marks) cut
              instr with
          | some fault =>
              rw [here] at step
              exact bind_of_error (bind_of_error step _) _
          | none =>
              rw [here] at step
              obtain ⟨thiz₁, ran₁, session₁, rtexts₁, callable₁, _⟩ := step
              have performed : thiz.perform callback (.replace instr mode) = .ok thiz₁ :=
                bind_of_ok ran₁ _
              have rest := ih session₁ fun _ => callable₁
              rw [rtext_congr rtexts₁] at rest
              rw [bind_of_ok performed, Option.none_or]
              cases later : d.sessionFault thiz.rtext (h ++ instr)
                  ((d.marks thiz.rtext h instr).foldl mode.book marks) (d.nextCut h cut instr)
                  (chunks calls) with
              | some fault =>
                  rw [later] at rest
                  exact rest
              | none =>
                  rw [later] at rest
                  obtain ⟨thiz', cut', ran, session', callable⟩ := rest
                  rw [List.append_assoc] at session'
                  exact ⟨thiz', cut', ran, session', fun _ => callable (Or.inr callable₁)⟩

/-- Between the first chunk and the end of a session, flushes make no difference to the text that
the client receives. A flush before the first chunk follows a pointer that nothing has set. -/
theorem performAll_received (built : (create.addEach patts).finalize = .ok thiz)
    (replacing : thiz.repdata.hasReplacement ≠ 0) (callback : κ) (calls : List Call) :
    (∀ instr mode, (thiz.performAll callback (.replace instr mode :: calls)).map received =
        (thiz.replaceAll callback ((instr, mode) :: chunks calls)).map received) ∧
      thiz.performAll callback (.keep :: calls) = .error .uninitialized := by
  constructor
  · intro instr mode
    obtain ⟨path, session, nothing, _⟩ := session_of_finalize built replacing
    have begun : thiz.Session path (dictionary patts) (thiz.repdata.delivered.flatMap Prod.snd)
        [] [] 0 := by rwa [nothing]
    have plain := begun.replaceAll_spec callback (List.cons_ne_nil (instr, mode) (chunks calls))
    have unset : (Call.replace instr mode :: calls).head? = some .keep →
        thiz.repdata.cbf = some callback := nofun
    have flushed := session.perform_spec unset
    rw [chunks_replace] at flushed
    cases fails : (dictionary patts).sessionFault thiz.rtext [] [] 0
        ((instr, mode) :: chunks calls) with
    | some fault =>
        rw [fails] at plain flushed
        rw [performAll, flushed, plain]
        rfl
    | none =>
        rw [fails] at plain flushed
        obtain ⟨thiz₁, blocks, last, ran₁, _, _, delivered, flat, _⟩ := plain
        obtain ⟨thiz₂, cut, ran₂, session₂, callable⟩ := flushed
        obtain ⟨thiz', last', ran', session', _, _, empty, _⟩ :=
          session₂.multifastRepFlush_spec (callable (Or.inl (List.cons_ne_nil _ _)))
        have text := received_of_session session' empty
        have text₁ : thiz₁.received = (blocks ++ [last]).flatten := by
          rw [received, delivered, nothing, List.nil_append, List.flatMap_map, List.flatMap_id']
        rw [performAll, bind_of_ok ran₂, ran', ran₁, Except.map, Except.map, text, text₁, flat]
        rfl
  · obtain ⟨thiz', _, ran, _, _, _, _, repdata⟩ := finalize_addEach (κ := κ) patts
    obtain rfl := Except.ok.inj (ran.symm.trans built)
    have unset : thiz'.repdata.cbf = none := by rw [repdata]; rfl
    have fault : thiz'.repdata.flush = .error .uninitialized := by
      rw [MfReplacementData.flush, unset]
    have flushed : thiz'.multifastRepFlush true = .error .uninitialized := by
      change (thiz'.repdata.flush >>= _) = _
      exact bind_of_error fault _
    rw [performAll, performEach_cons, perform, flushed]
    rfl

/-- The text `abc` with a flush after every letter. -/
theorem performAll_received_abc : ∃ thiz : ReplaceTrie Unit,
    (create.addEach overlapping).finalize = .ok thiz ∧
      (thiz.performAll () [.replace [97] .normal, .keep, .replace [98] .normal, .keep, .keep,
          .replace [99] .normal, .keep]).map received =
        (thiz.replaceAll () [([97], .normal), ([98], .normal), ([99], .normal)]).map received ∧
      thiz.performAll () [.keep, .keep, .replace [98] .normal, .keep, .keep, .replace [99] .normal,
        .keep] = .error .uninitialized := by
  obtain ⟨thiz, built, replacing⟩ := replacing_overlapping
  obtain ⟨same, fault⟩ := performAll_received built replacing ()
    [.keep, .replace [98] .normal, .keep, .keep, .replace [99] .normal, .keep]
  exact ⟨thiz, built, same [97] .normal, fault⟩

end ReplaceTrie

end Multifast
