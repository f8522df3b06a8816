import Paraglob.Library.Substitution
import Paraglob.Multifast.Replace

/-!
# The output buffer and the backlog

What the functions on the replacement data do to the output, that is, to what the
callbacks have received followed by what is still in the buffer. Every function
appends a text to it. The letters come from the chunk at hand or from the backlog,
and the results below say which part of the whole text is copied, as long as the
backlog holds the end of what was read before the chunk.
-/

namespace Multifast

open Substitution

theorem sizeSub_of_le {m n : Nat} (le : n ≤ m) : sizeSub m n = m - n := if_pos le

theorem readCells_of_le {cells : Bytes} {start length : Nat}
    (inside : start + length ≤ cells.length) :
    readCells cells start length = .ok ((cells.drop start).take length) := if_pos (Or.inl inside)

namespace MfReplacementData

variable {κ : Type} {rd rd' rd'' : MfReplacementData κ} {text text' : Bytes}

/-- What the callbacks have received, and the buffer behind it. -/
def output (rd : MfReplacementData κ) : Bytes := rd.delivered.flatMap Prod.snd ++ rd.buffer

/-- `rd'` is `rd` with the text appended to its output. Only full buffers were delivered, and
to the callback that is set. -/
structure Appends (rd : MfReplacementData κ) (text : Bytes) (rd' : MfReplacementData κ) : Prop where
  same : rd' = { rd with buffer := rd'.buffer, delivered := rd'.delivered }
  output : rd'.output = rd.output ++ text
  room : rd'.buffer.length < mfReplacementBufferSize
  full : ∃ calls, rd'.delivered = rd.delivered ++ calls ∧
    ∀ call ∈ calls, rd.cbf = some call.1 ∧ call.2.length = mfReplacementBufferSize

namespace Appends

theorem nothing (room : rd.buffer.length < mfReplacementBufferSize) : Appends rd [] rd :=
  ⟨rfl, (List.append_nil _).symm, room, [], (List.append_nil _).symm, by simp⟩

theorem cbf (h : Appends rd text rd') : rd'.cbf = rd.cbf := by rw [h.same]

theorem backlog (h : Appends rd text rd') : rd'.backlog = rd.backlog := by rw [h.same]

theorem curser (h : Appends rd text rd') : rd'.curser = rd.curser := by rw [h.same]

theorem noms (h : Appends rd text rd') : rd'.noms = rd.noms := by rw [h.same]

theorem hasReplacement (h : Appends rd text rd') : rd'.hasReplacement = rd.hasReplacement := by
  rw [h.same]

theorem trans (h : Appends rd text rd') (h' : Appends rd' text' rd'') :
    Appends rd (text ++ text') rd'' where
  same := by
    rw [h'.same, h.same]
  output := by
    rw [h'.output, h.output, List.append_assoc]
  room := h'.room
  full := by
    obtain ⟨calls, delivered, full⟩ := h.full
    obtain ⟨calls', delivered', full'⟩ := h'.full
    refine ⟨calls ++ calls', by rw [delivered', delivered, List.append_assoc], ?_⟩
    intro call mem
    cases List.mem_append.mp mem with
    | inl early => exact full call early
    | inr late => exact h.cbf ▸ full' call late

theorem adjust (h : Appends rd text rd') (noms : List MfReplacementNominee) (curser : Nat)
    (backlog : Bytes) :
    Appends { rd with noms, curser, backlog } text { rd' with noms, curser, backlog } where
  same := by
    rw [h.same]
  output := h.output
  room := h.room
  full := h.full

theorem move (h : Appends rd text rd') (c : Nat) :
    Appends { rd with curser := c } text { rd' with curser := c } := by
  have moved := h.adjust rd.noms c rd.backlog
  rw [h.same] at moved ⊢
  exact moved

end Appends

theorem appendLoop_spec {c : κ} (callable : rd.cbf = some c)
    (room : rd.buffer.length < mfReplacementBufferSize) {fuel : Nat} (enough : text.length < fuel) :
    ∃ rd', appendLoop fuel rd text = .ok rd' ∧ Appends rd text rd' := by
  induction fuel generalizing rd text with
  | zero => exact absurd enough (Nat.not_lt_zero _)
  | succ fuel ih =>
      rw [appendLoop]
      by_cases empty : text.length = 0
      · rw [if_pos empty]
        obtain rfl := List.length_eq_zero_iff.mp empty
        exact ⟨rd, rfl, .nothing room⟩
      · rw [if_neg empty, sizeSub_of_le (Nat.le_of_lt room)]
        have space : 0 < mfReplacementBufferSize - rd.buffer.length := Nat.sub_pos_of_lt room
        by_cases fits : text.length < mfReplacementBufferSize - rd.buffer.length
        · let rd₁ := { rd with buffer := rd.buffer ++ text }
          have length : rd₁.buffer.length = rd.buffer.length + text.length := List.length_append
          have room₁ : rd₁.buffer.length < mfReplacementBufferSize := by omega
          have here : Appends rd text rd₁ :=
            ⟨rfl, (List.append_assoc _ _ _).symm, room₁, [], (List.append_nil _).symm, by simp⟩
          obtain ⟨rd', ran, rest⟩ := @ih rd₁ [] callable room₁
            (by rw [List.length_nil]; omega)
          refine ⟨rd', ?_, List.append_nil text ▸ here.trans rest⟩
          simp only [ge_iff_le, Nat.le_of_lt fits, if_true, List.take_length, List.drop_length,
            Nat.ne_of_lt room₁, rd₁, if_false]
          exact ran
        · have full : (rd.buffer ++ text.take (mfReplacementBufferSize - rd.buffer.length)).length =
              mfReplacementBufferSize := by
            rw [List.length_append, List.length_take]
            omega
          let block := rd.buffer ++ text.take (mfReplacementBufferSize - rd.buffer.length)
          let rd₁ := { rd with buffer := [], delivered := rd.delivered ++ [(c, block)] }
          have here : Appends rd (text.take (mfReplacementBufferSize - rd.buffer.length)) rd₁ := by
            refine ⟨rfl, ?_, Nat.zero_lt_succ _, [(c, block)], rfl, ?_⟩
            · simp [output, rd₁, block]
            · intro call mem
              rw [List.mem_singleton.mp mem]
              exact ⟨callable, full⟩
          obtain ⟨rd', ran, rest⟩ := @ih rd₁
            (text.drop (mfReplacementBufferSize - rd.buffer.length)) callable
            (Nat.zero_lt_succ _) (by rw [List.length_drop]; omega)
          have done := here.trans rest
          rw [List.take_append_drop] at done
          refine ⟨rd', ?_, done⟩
          have copyLen : (if mfReplacementBufferSize - rd.buffer.length ≥ text.length then
              text.length else mfReplacementBufferSize - rd.buffer.length) =
                mfReplacementBufferSize - rd.buffer.length := by
            split <;> omega
          have flushed : flush { rd with buffer := block } = .ok rd₁ := by
            simp only [flush, callable, rd₁]
          simp only [copyLen, full, if_true]
          exact (bind_of_ok flushed _).trans ran

theorem appendText_spec {c : κ} (callable : rd.cbf = some c)
    (room : rd.buffer.length < mfReplacementBufferSize) (text : Bytes) :
    ∃ rd', rd.appendText text = .ok rd' ∧ Appends rd text rd' :=
  appendLoop_spec callable room (Nat.lt_add_of_pos_right (by decide))

/-- A callback is set, the buffer has room, and the backlog holds what was read from `cut` on.
`h` is what was read before the chunk at hand. -/
structure Loaded (rd : MfReplacementData κ) (h : Bytes) (cut : Nat) : Prop where
  callable : ∃ c, rd.cbf = some c
  room : rd.buffer.length < mfReplacementBufferSize
  backlog : rd.backlog = h.drop cut
  fits : rd.backlog.length ≤ acPatternMaxLength
  le : cut ≤ h.length

variable {h instr : Bytes} {cut fromPos toPos : Nat}

theorem Loaded.appends (loaded : rd.Loaded h cut) (appends : Appends rd text rd') :
    rd'.Loaded h cut where
  callable := appends.cbf ▸ loaded.callable
  room := appends.room
  backlog := appends.backlog ▸ loaded.backlog
  fits := appends.backlog ▸ loaded.fits
  le := loaded.le

theorem Loaded.appendText_spec (loaded : rd.Loaded h cut) (text : Bytes) :
    ∃ rd', rd.appendText text = .ok rd' ∧ Appends rd text rd' :=
  loaded.callable.elim fun _ callable => MfReplacementData.appendText_spec callable loaded.room text

theorem Loaded.backlogBase (loaded : rd.Loaded h cut) :
    sizeSub h.length rd.backlog.length = cut := by
  have le := loaded.le
  rw [loaded.backlog, List.length_drop, sizeSub_of_le (by omega)]
  omega

/-- A part of the whole text that begins at `cut` or later is copied, wherever it is found. -/
theorem Loaded.appendFactor_spec (loaded : rd.Loaded h cut) (behind : cut ≤ fromPos)
    (inside : toPos ≤ (h ++ instr).length) :
    ∃ rd', rd.appendFactor (some instr) h.length fromPos toPos = .ok rd' ∧
      Appends rd (((h ++ instr).take toPos).drop fromPos) rd' := by
  have le := loaded.le
  rw [List.length_append] at inside
  rw [appendFactor]
  by_cases none : toPos < fromPos
  · rw [if_pos none, List.drop_of_length_le (by rw [List.length_take]; omega)]
    exact ⟨rd, rfl, .nothing loaded.room⟩
  rw [if_neg none]
  by_cases new : h.length ≤ fromPos
  · have factor : ((h ++ instr).take toPos).drop fromPos =
        (instr.drop (fromPos - h.length)).take (toPos - fromPos) := by
      rw [List.drop_take, List.drop_append, List.drop_of_length_le new, List.nil_append]
    rw [if_pos new, factor]
    have inside : fromPos - h.length + (toPos - fromPos) ≤ instr.length := by omega
    simp only [readCells_of_le inside]
    exact loaded.appendText_spec _
  · have old : ¬ fromPos < cut := Nat.not_lt.mpr behind
    have size : rd.backlog.length = h.length - cut := by rw [loaded.backlog, List.length_drop]
    have cells : ∀ n, (rd.backlog.drop (fromPos - cut)).take n = (h.drop fromPos).take n := by
      intro n
      rw [loaded.backlog, List.drop_drop, Nat.add_sub_cancel' behind]
    simp only [if_neg new, loaded.backlogBase, if_neg old]
    by_cases early : toPos < h.length
    · have factor : ((h ++ instr).take toPos).drop fromPos =
          (h.drop fromPos).take (toPos - fromPos) := by
        rw [List.take_append_of_le_length (Nat.le_of_lt early), List.drop_take]
      rw [if_pos early, factor, ← cells]
      simp only [readCells_of_le
        (show fromPos - cut + (toPos - fromPos) ≤ rd.backlog.length by omega)]
      exact loaded.appendText_spec _
    · have count : sizeSub (rd.backlog.length + cut) fromPos = h.length - fromPos := by
        rw [sizeSub_of_le (by omega)]
        omega
      have factor : ((h ++ instr).take toPos).drop fromPos =
          (h.drop fromPos).take (h.length - fromPos) ++ (instr.drop 0).take (toPos - h.length) := by
        rw [List.take_append, List.drop_append_of_le_length
          (by rw [List.length_take]; omega), List.take_of_length_le (by omega),
          List.take_of_length_le (l := h.drop fromPos) (by rw [List.length_drop]), List.drop_zero]
      obtain ⟨rd₁, ran₁, appends₁⟩ := loaded.appendText_spec
        ((h.drop fromPos).take (h.length - fromPos))
      obtain ⟨rd₂, ran₂, appends₂⟩ := (loaded.appends appends₁).appendText_spec
        ((instr.drop 0).take (toPos - h.length))
      rw [if_neg early, count, factor]
      refine ⟨rd₂, ?_, appends₁.trans appends₂⟩
      simp only [readCells_of_le
        (show fromPos - cut + (h.length - fromPos) ≤ rd.backlog.length by omega), cells,
        readCells_of_le (show 0 + (toPos - h.length) ≤ instr.length by omega)]
      exact (bind_of_ok ran₁ _).trans ran₂

end MfReplacementData

/-- The stretch a nominee covers, with the replacement of its pattern. -/
def MfReplacementNominee.mark (rtext : AcPattern → Option Bytes) (nom : MfReplacementNominee) :
    Mark UInt8 := ⟨nom.start, nom.position, (rtext nom.pattern).getD []⟩

namespace MfReplacementData

variable {κ : Type} {rd rd' : MfReplacementData κ} {h instr : Bytes} {cut toPosition bgPos : Nat}
variable {rtext : AcPattern → Option Bytes} {noms : List MfReplacementNominee}

/-- The nominees in front of the position are replaced one after the other, and the others are
kept, unless the index wraps. -/
theorem Loaded.consumeNominees_spec {index : Nat} (loaded : rd.Loaded h cut)
    (behind : cut ≤ rd.curser) (inside : toPosition ≤ (h ++ instr).length)
    (booked : ∀ nom ∈ noms, (rtext nom.pattern).isSome ∧ cut ≤ nom.position)
    (below : index < 2 ^ 32) :
    let front := noms.takeWhile fun nom => nom.start < toPosition
    if index + front.length < 2 ^ 32 then
      ∃ rd', consumeNominees rtext (some instr) h.length toPosition index noms rd =
          .ok (index + front.length, noms.dropWhile fun nom => nom.start < toPosition, rd') ∧
        Appends { rd with curser := reached rd.curser (front.map (·.mark rtext)) }
          (spliced (h ++ instr) rd.curser (front.map (·.mark rtext))) rd'
    else consumeNominees rtext (some instr) h.length toPosition index noms rd =
      .error .outOfFuel := by
  induction noms generalizing rd index with
  | nil =>
      intro front
      rw [if_pos (show index + front.length < 2 ^ 32 from below)]
      exact ⟨rd, rfl, .nothing loaded.room⟩
  | cons nom noms ih =>
      by_cases last : toPosition ≤ nom.start
      · have stop : decide (nom.start < toPosition) = false :=
          decide_eq_false (Nat.not_lt.mpr last)
        simp only [List.takeWhile_cons, List.dropWhile_cons, stop, consumeNominees, last, if_true,
          Bool.false_eq_true, if_false, List.length_nil, Nat.add_zero, below]
        exact ⟨rd, rfl, .nothing loaded.room⟩
      · have go : decide (nom.start < toPosition) = true := decide_eq_true (Nat.lt_of_not_le last)
        obtain ⟨replaced, ends⟩ := booked nom List.mem_cons_self
        obtain ⟨text, found⟩ := Option.isSome_iff_exists.mp replaced
        have mark : nom.mark rtext = ⟨nom.start, nom.position, text⟩ := by
          rw [MfReplacementNominee.mark, found, Option.getD_some]
        obtain ⟨rd₁, ran₁, appends₁⟩ := loaded.appendFactor_spec behind
          (show nom.start ≤ (h ++ instr).length by omega)
        have loaded₁ := loaded.appends appends₁
        obtain ⟨rd₂, ran₂, appends₂⟩ := loaded₁.appendText_spec text
        have loaded₂ := loaded₁.appends appends₂
        let rd₃ := { rd₂ with curser := nom.position }
        have loaded₃ : rd₃.Loaded h cut :=
          ⟨loaded₂.callable, loaded₂.room, loaded₂.backlog, loaded₂.fits, loaded₂.le⟩
        have step : consumeNominees rtext (some instr) h.length toPosition index (nom :: noms) rd =
            if index + 1 = 2 ^ 32 then .error .outOfFuel
            else consumeNominees rtext (some instr) h.length toPosition (index + 1) noms rd₃ := by
          simp only [consumeNominees, last, if_false, found]
          exact (bind_of_ok ran₁ _).trans (bind_of_ok ran₂ _)
        rw [step]
        simp only [List.takeWhile_cons, List.dropWhile_cons, go, if_true, List.length_cons,
          List.map_cons, mark, spliced]
        by_cases wraps : index + 1 = 2 ^ 32
        · rw [if_pos wraps, if_neg (by omega)]
        · have rest := ih loaded₃ ends (fun nom hn => booked nom (List.mem_cons_of_mem _ hn))
            (show index + 1 < 2 ^ 32 by omega)
          dsimp only at rest
          rw [if_neg wraps, show ∀ n, index + (n + 1) = index + 1 + n by omega]
          split at rest
          · rename_i few
            obtain ⟨rd', ran, appends⟩ := rest
            rw [if_pos few]
            refine ⟨rd', ran, ?_⟩
            rw [← List.append_assoc]
            exact ((appends₁.trans appends₂).move _).trans appends
          · rename_i many
            rw [if_neg many]
            exact rest

end MfReplacementData

/-- What goes wrong when `index` nominees are consumed and `count` are left: the loop does not end,
or what is left does not fit into the cells in front of it. -/
def crowding (index count : Nat) : Option Fault :=
  if 2 ^ 32 ≤ index then some .outOfFuel
  else if index ≠ 0 ∧ index < count then some .overlap
  else none

theorem crowding_zero (count : Nat) : crowding 0 count = none := by
  simp [crowding]

theorem crowding_of_le {index count : Nat} (few : index < 2 ^ 32) (le : count ≤ index) :
    crowding index count = none := by
  rw [crowding, if_neg (Nat.not_le.mpr few), if_neg fun both => Nat.not_lt.mpr le both.2]

namespace MfReplacementData

variable {κ : Type} {rd rd' : MfReplacementData κ} {h instr : Bytes} {cut toPosition bgPos : Nat}
variable {rtext : AcPattern → Option Bytes}

/-- Replacing up to a position of the chunk at hand copies the whole text from the cursor on, with
the nominees that begin before the position replaced. -/
theorem Loaded.doReplace_spec (loaded : rd.Loaded h cut) (behind : cut ≤ rd.curser)
    (late : h.length ≤ toPosition) (inside : toPosition ≤ (h ++ instr).length)
    (booked : ∀ nom ∈ rd.noms, (rtext nom.pattern).isSome ∧ cut ≤ nom.position) :
    let front := rd.noms.takeWhile fun nom => nom.start < toPosition
    let rest := rd.noms.dropWhile fun nom => nom.start < toPosition
    match crowding front.length rest.length with
    | some fault => rd.doReplace rtext (some instr) h.length toPosition = .error fault
    | none =>
      ∃ rd', rd.doReplace rtext (some instr) h.length toPosition = .ok rd' ∧
        Appends { rd with
            noms := rest
            curser := max (reached rd.curser (front.map (·.mark rtext))) toPosition
            backlog := [] }
          (copied (h ++ instr) rd.curser (front.map (·.mark rtext)) toPosition) rd' := by
  intro front rest
  have consumed := loaded.consumeNominees_spec behind inside booked (Nat.two_pow_pos 32)
  dsimp only at consumed
  rw [Nat.zero_add] at consumed
  rw [doReplace, if_neg (Nat.not_lt.mpr late), crowding]
  by_cases endless : 2 ^ 32 ≤ front.length
  · rw [if_neg (Nat.not_lt.mpr endless)] at consumed
    rw [if_pos endless]
    exact bind_of_error consumed _
  rw [if_pos (Nat.lt_of_not_le endless)] at consumed
  obtain ⟨rd₁, ran₁, appends₁⟩ := consumed
  rw [if_neg endless]
  by_cases overlaps : front.length ≠ 0 ∧ front.length < rest.length
  · have moved : moveNominees front.length rest = .error .overlap :=
      if_pos ⟨Nat.ne_of_gt (Nat.zero_lt_of_lt overlaps.2), overlaps⟩
    rw [if_pos overlaps]
    exact (bind_of_ok ran₁ _).trans (bind_of_error moved _)
  rw [if_neg overlaps]
  have moved : moveNominees front.length rest = .ok rest := if_neg fun all => overlaps all.2
  have loaded₁ : { rd₁ with noms := rest }.Loaded h cut :=
    ⟨appends₁.cbf ▸ loaded.callable, appends₁.room, appends₁.backlog ▸ loaded.backlog,
      appends₁.backlog ▸ loaded.fits, loaded.le⟩
  have curser₁ : rd₁.curser = reached rd.curser (front.map (·.mark rtext)) := appends₁.curser
  by_cases more : toPosition > rd₁.curser
  · have behind₁ : cut ≤ rd₁.curser := by
      rw [curser₁]
      refine le_reached behind fun m hm => ?_
      obtain ⟨nom, hn, rfl⟩ := List.mem_map.mp hm
      exact (booked nom ((List.takeWhile_sublist _).mem hn)).2
    obtain ⟨rd₂, ran₂, appends₂⟩ := loaded₁.appendFactor_spec behind₁ inside
    refine ⟨{ rd₂ with curser := toPosition, backlog := [] }, ?_, ?_⟩
    · refine (bind_of_ok ran₁ _).trans ((bind_of_ok moved _).trans ?_)
      simp only [more, if_true]
      exact (bind_of_ok ran₂ _).trans (if_pos late)
    · have all := (appends₁.adjust rest toPosition []).trans (appends₂.adjust rest toPosition [])
      have noms₂ : rd₂.noms = rest := appends₂.noms
      have kept : { rd₂ with curser := toPosition, backlog := [] } =
          { rd₂ with noms := rest, curser := toPosition, backlog := [] } := by
        rw [← noms₂]
      rw [curser₁] at more all
      rw [Nat.max_eq_right (Nat.le_of_lt more), kept]
      exact all
  · refine ⟨{ rd₁ with noms := rest, backlog := [] }, ?_, ?_⟩
    · refine (bind_of_ok ran₁ _).trans ((bind_of_ok moved _).trans ?_)
      simp only [more, if_false]
      exact if_pos (late.trans (Nat.le_of_not_gt more))
    · have all := appends₁.adjust rest (reached rd.curser (front.map (·.mark rtext))) []
      have none : ((h ++ instr).take toPosition).drop
          (reached rd.curser (front.map (·.mark rtext))) = [] := by
        apply List.drop_of_length_le
        rw [List.length_take, ← curser₁]
        omega
      have kept : { rd₁ with noms := rest, backlog := [] } =
          { rd₁ with
            noms := rest
            curser := reached rd.curser (front.map (·.mark rtext)), backlog := [] } := by
        rw [← curser₁]
      rw [copied, none, List.append_nil, Nat.max_eq_left (by rw [← curser₁]; omega), kept]
      exact all

/-- When nothing of the chunk was used, all of it goes behind the backlog. -/
theorem Loaded.saveToBacklog_of_lt (loaded : rd.Loaded h cut) (early : bgPos < h.length) :
    rd.saveToBacklog instr h.length bgPos =
      if (h ++ instr).length - cut ≤ acPatternMaxLength then
        .ok { rd with backlog := (h ++ instr).drop cut }
      else .error .outOfBounds := by
  have le := loaded.le
  have fits := loaded.fits
  have size : rd.backlog.length = h.length - cut := by rw [loaded.backlog, List.length_drop]
  have joined : (h ++ instr).drop cut = rd.backlog ++ instr := by
    rw [List.drop_append_of_le_length le, loaded.backlog]
  simp only [saveToBacklog, if_neg (Nat.not_lt.mpr (Nat.le_of_lt early)), joined]
  rw [List.length_append]
  by_cases empty : instr.length = 0
  · rw [if_pos empty, if_pos (by omega), List.length_eq_zero_iff.mp empty, List.append_nil]
  · rw [if_neg empty, if_neg (Nat.not_lt_zero _), List.drop_zero]
    have same : rd.backlog.length + (instr.length - 0) = h.length + instr.length - cut := by omega
    rw [same]

/-- When the backlog is used up, the end of the chunk takes its place. -/
theorem saveToBacklog_of_le (empty : rd.backlog = []) (late : h.length ≤ bgPos)
    (inside : bgPos ≤ (h ++ instr).length) :
    rd.saveToBacklog instr h.length bgPos =
      if (h ++ instr).length - bgPos ≤ acPatternMaxLength then
        .ok { rd with backlog := (h ++ instr).drop bgPos }
      else .error .outOfBounds := by
  rw [List.length_append] at inside ⊢
  have bgPosR : (if h.length < bgPos then bgPos - h.length else 0) = bgPos - h.length := by
    split <;> omega
  have rest : (h ++ instr).drop bgPos = instr.drop (bgPos - h.length) := by
    rw [List.drop_append, List.drop_of_length_le late, List.nil_append]
  simp only [saveToBacklog, bgPosR, rest, empty, List.nil_append, List.length_nil, Nat.zero_add]
  by_cases all : instr.length = bgPos - h.length
  · rw [if_pos all, if_pos (by omega), List.drop_of_length_le (Nat.le_of_eq all), ← empty]
  · have same : instr.length - (bgPos - h.length) = h.length + instr.length - bgPos := by omega
    rw [if_neg all, if_neg (by omega), same]

end MfReplacementData

end Multifast
