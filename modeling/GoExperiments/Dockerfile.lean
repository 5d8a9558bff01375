import GoExperiments.Lib.GoBasic
import GoExperiments.Lib.Replace

/-!
# Writing a Dockerfile back from an image

`dockerfile/image_client.go` prints one line for every entry of an image's history, oldest
first.  The text of an entry goes through a replacer with three pairs and then through one
substitution for every reserved instruction.

* `emit` — the line for one entry; `dockerFile` — the whole file.
* `uncontinue` — a line without the line continuations the replacer puts in front of `&&`.
* `run_line_preserved_iff` — the line of a shell command says that command, once the
  continuations are removed, exactly when the command names neither `/bin/sh -c` nor, behind a
  blank, a reserved instruction.

The proof from left to right counts letters.  Only the three pairs of the replacer and the
substitutions change anything, and each of them changes the number of some letter that
nothing else can make up for: `#`, `R`, the backslash and the blank.
-/

namespace Dockerfile

open Replace Go

/-! ## The source -/

def reservedInstructions : List Bytes :=
  ["ENV", "EXPOSE", "ARG", "LABEL", "USER", "EXPOSE", "CMD", "MAINTAINER", "ENTRYPOINT",
    "STOPSIGNAL", "COPY", "VOLUME", "WORKDIR", "ONBUILD", "HEALTHCHECK", "SHELL"].map ascii

def nopRule : Rule UInt8 := ⟨ascii "/bin/sh -c #(nop) ", [], by decide +kernel⟩

def runRule : Rule UInt8 := ⟨ascii "/bin/sh -c", ascii "RUN /bin/sh -c", by decide +kernel⟩

def andRule : Rule UInt8 := ⟨ascii "&&", ascii "\\\n    &&", by decide +kernel⟩

/-- The `strings.NewReplacer` of `dockerFile`. -/
def cleaner : List (Rule UInt8) := [nopRule, runRule, andRule]

/-- `strings.ReplaceAll(steps, " "+e, e)`. -/
def reservedRule (e : Bytes) : Rule UInt8 := ⟨32 :: e, e, by simp⟩

/-- The loop over the reserved instructions. -/
def joinReserved (es : List Bytes) (steps : Bytes) : Bytes :=
  es.foldl (fun steps e => replace [reservedRule e] steps) steps

/-- The line for the text of an entry. -/
def emit (history : Bytes) : Bytes := joinReserved reservedInstructions (replace cleaner history)

/-- The part of `image.HistoryResponseItem` that is read. -/
structure HistoryItem where
  createdBy : Bytes

/-- The loop of `dockerFile` on one entry. -/
def addLine (df : Bytes) (item : HistoryItem) : Bytes :=
  if item.createdBy.length = 0 then df else df ++ (emit item.createdBy ++ ascii "\n")

/-- `dockerFile`, with what `ImageHistory` returns, newest entry first. -/
def dockerFile (base : Bytes) (imageHistory : Except String (List HistoryItem)) :
    Except String Bytes :=
  match imageHistory with
  | .error err => .error err
  | .ok items => .ok (items.reverse.foldl addLine (ascii "FROM " ++ base ++ ascii "\n"))

/-! ## Removing the continuations -/

def continuationRule : Rule UInt8 := ⟨ascii "\\\n    &&", ascii "&&", by decide +kernel⟩

/-- A line without its continuations. -/
def uncontinue (line : Bytes) : Bytes := replace [continuationRule] line

/-- The command names neither the shell nor, behind a blank, a reserved instruction. -/
def Unambiguous (cmd : Bytes) : Prop :=
  ¬ ascii "/bin/sh -c" <:+: cmd ∧
    ∀ e ∈ reservedInstructions, ¬ ascii " " ++ e <:+: ascii " " ++ cmd

instance : DecidablePred Unambiguous := fun cmd => by unfold Unambiguous; infer_instance

/-! ## The replacer -/

theorem old_nop : nopRule.old = runRule.old ++ 32 :: ascii "#(nop) " := by decide +kernel

theorem ascii_shell : ascii "/bin/sh -c " = runRule.old ++ [32] := by decide +kernel

theorem old_run : runRule.old = [47, 98, 105, 110, 47, 115, 104, 32, 45, 99] := by decide +kernel

theorem new_run :
    runRule.new = [82, 85, 78, 32, 47, 98, 105, 110, 47, 115, 104, 32, 45, 99] := by decide +kernel

theorem old_and : andRule.old = [38, 38] := by decide +kernel

theorem new_and : andRule.new = [92, 10, 32, 32, 32, 32, 38, 38] := by decide +kernel

/-- The shell at the beginning of an entry that is not a `#(nop)`. -/
theorem replace_cleaner_shell {cmd : Bytes} (hcmd : ¬ ascii "#(nop) " <+: cmd) :
    replace cleaner (ascii "/bin/sh -c " ++ cmd) = runRule.new ++ replace cleaner (32 :: cmd) := by
  have hshell : ascii "/bin/sh -c " ++ cmd = runRule.old ++ 32 :: cmd := by
    rw [ascii_shell, List.append_assoc]
    rfl
  have hnop : nopRule.old.isPrefixOf (runRule.old ++ 32 :: cmd) = false := by
    rw [← Bool.not_eq_true, List.isPrefixOf_iff_prefix, old_nop, List.prefix_append_right_inj,
      List.cons_prefix_cons]
    exact fun h => hcmd h.2
  have hrun : runRule.old.isPrefixOf (runRule.old ++ 32 :: cmd) = true :=
    List.isPrefixOf_iff_prefix.2 (List.prefix_append _ _)
  have hfirst : firstRule cleaner (runRule.old ++ 32 :: cmd) = some runRule := by
    simp [firstRule, cleaner, hnop, hrun]
  rw [hshell, replace_sub hfirst]

/-- Only continuations are put in. -/
def OnlyAnds (s : Bytes) : Prop := ∀ r, .sub r ∈ cut cleaner s → r = andRule

theorem onlyAnds_iff (s : Bytes) : OnlyAnds s ↔ ¬ runRule.old <:+: s := by
  constructor
  · intro h
    refine @not_infix_of_cut _ _ cleaner s runRule (by simp [cleaner]) fun r hr c hc => ?_
    rw [h r hr, old_and] at hc
    rw [old_run]
    rintro ⟨⟩
    simp at hc
  · intro h r hr
    have hinf := infix_of_sub_mem_cut hr
    have hmem := mem_of_sub_mem_cut hr
    simp only [cleaner, List.mem_cons, List.not_mem_nil, or_false] at hmem
    rcases hmem with rfl | rfl | rfl
    · rw [old_nop] at hinf
      exact absurd ((List.prefix_append _ _).isInfix.trans hinf) h
    · exact absurd hinf h
    · rfl

/-! ### Continuations -/

/-- `Continued s out`: `out` is `s` with a continuation in front of every `&&`. -/
inductive Continued : Bytes → Bytes → Prop
  | nil : Continued [] []
  | keep {c : UInt8} {cs out : Bytes} (hand : ¬ [38, 38] <+: c :: cs) (hcs : Continued cs out) :
      Continued (c :: cs) (c :: out)
  | ands {t out : Bytes} (ht : Continued t out) :
      Continued (38 :: 38 :: t) (92 :: 10 :: 32 :: 32 :: 32 :: 32 :: 38 :: 38 :: out)

theorem continued_replace {s : Bytes} (hs : OnlyAnds s) : Continued s (replace cleaner s) := by
  induction s using cut_induction cleaner with
  | nil => exact .nil
  | keep c cs hc ih =>
      have hand := firstRule_eq_none.1 hc andRule (by simp [cleaner])
      rw [old_and] at hand
      rw [replace_keep hc]
      refine .keep hand (ih fun r hr => hs r ?_)
      rw [cut_keep hc]
      exact .tail _ hr
  | sub r t hr ih =>
      have hcut := cut_sub hr
      have hand : r = andRule := hs r (by rw [hcut]; exact List.mem_cons_self ..)
      subst hand
      rw [replace_sub hr, old_and, new_and]
      refine .ands (ih fun r' hr' => hs r' ?_)
      rw [hcut]
      exact .tail _ hr'

section Continued

variable {s out w : Bytes}

theorem Continued.prefix_out (h : Continued s out) (hw : 38 ∉ w) (hpre : w <+: s) : w <+: out := by
  induction h generalizing w with
  | nil => exact hpre
  | keep hand hcs ih =>
      cases w with
      | nil => exact List.nil_prefix
      | cons x w =>
          obtain ⟨rfl, hrest⟩ := List.cons_prefix_cons.1 hpre
          exact List.cons_prefix_cons.2 ⟨rfl, ih (fun hmem => hw (.tail _ hmem)) hrest⟩
  | ands ht ih =>
      cases w with
      | nil => exact List.nil_prefix
      | cons x w =>
          obtain ⟨rfl, -⟩ := List.cons_prefix_cons.1 hpre
          exact absurd (List.mem_cons_self ..) hw

theorem Continued.prefix_source (h : Continued s out) (hw : 92 ∉ w) (hpre : w <+: out) :
    w <+: s := by
  induction h generalizing w with
  | nil => exact hpre
  | keep hand hcs ih =>
      cases w with
      | nil => exact List.nil_prefix
      | cons x w =>
          obtain ⟨rfl, hrest⟩ := List.cons_prefix_cons.1 hpre
          exact List.cons_prefix_cons.2 ⟨rfl, ih (fun hmem => hw (.tail _ hmem)) hrest⟩
  | ands ht ih =>
      cases w with
      | nil => exact List.nil_prefix
      | cons x w =>
          obtain ⟨rfl, -⟩ := List.cons_prefix_cons.1 hpre
          exact absurd (List.mem_cons_self ..) hw

/-- A word without `&` is still there. -/
theorem Continued.infix_out (h : Continued s out) {x : UInt8} (hw : 38 ∉ x :: w)
    (hinf : x :: w <:+: s) : x :: w <:+: out := by
  induction h with
  | nil => exact hinf
  | keep hand hcs ih =>
      rcases List.infix_cons_iff.1 hinf with hpre | hinf
      · obtain ⟨rfl, htail⟩ := List.cons_prefix_cons.1 hpre
        have hout := hcs.prefix_out (fun hmem => hw (.tail _ hmem)) htail
        exact (List.cons_prefix_cons.2 ⟨rfl, hout⟩).isInfix
      · exact List.infix_cons (ih hinf)
  | @ands t out ht ih =>
      have hx : x ≠ 38 := fun hx => hw (hx ▸ List.mem_cons_self ..)
      simp only [List.infix_cons_iff, List.cons_prefix_cons, hx, false_and, false_or] at hinf
      exact (ih hinf).trans (List.suffix_append [92, 10, 32, 32, 32, 32, 38, 38] out).isInfix

/-- A word behind a blank was there before, if it does not begin with a blank or `&`. -/
theorem Continued.infix_source (h : Continued s out) {x : UInt8} (hblank : x ≠ 32) (hand : x ≠ 38)
    (hw : 92 ∉ x :: w) (hinf : 32 :: x :: w <:+: out) : 32 :: x :: w <:+: s := by
  induction h with
  | nil => exact hinf
  | keep _ hcs ih =>
      rcases List.infix_cons_iff.1 hinf with hpre | hinf
      · obtain ⟨rfl, htail⟩ := List.cons_prefix_cons.1 hpre
        exact (List.cons_prefix_cons.2 ⟨rfl, hcs.prefix_source hw htail⟩).isInfix
      · exact List.infix_cons (ih hinf)
  | ands ht ih =>
      -- no blank of the continuation is followed by `x`
      simp only [List.infix_cons_iff, List.cons_prefix_cons, hblank, hand, false_and, and_false,
        false_or, show (32 : UInt8) ≠ 92 by decide, show (32 : UInt8) ≠ 10 by decide,
        show (32 : UInt8) ≠ 38 by decide] at hinf
      exact List.infix_cons (List.infix_cons (ih hinf))

/-- The text never goes on with `&&` where it was not cut. -/
theorem Continued.not_prefix_ands (h : Continued s out) : ¬ [38, 38] <+: out := by
  intro hpre
  cases h with
  | nil => simp at hpre
  | @keep c cs out hand hcs =>
      obtain ⟨rfl, hnext⟩ := List.cons_prefix_cons.1 hpre
      -- `&` was kept, so another one after it would have been part of `&&`
      cases hcs with
      | nil => simp at hnext
      | @keep d ds out' _ _ =>
          obtain ⟨rfl, -⟩ := List.cons_prefix_cons.1 hnext
          exact hand (by simp)
      | ands _ => exact absurd (List.cons_prefix_cons.1 hnext).1 (by decide)
  | ands ht => exact absurd (List.cons_prefix_cons.1 hpre).1 (by decide)

/-- A letter that is neither a backslash nor `&` was kept. -/
theorem Continued.of_cons (h : Continued s out) {x : UInt8} (hx : x ≠ 92)
    (hpre : x :: w <+: out) : ∃ t out', out = x :: out' ∧ Continued t out' ∧ w <+: out' := by
  cases h with
  | nil => simp at hpre
  | @keep c cs out hand hcs =>
      obtain ⟨rfl, hrest⟩ := List.cons_prefix_cons.1 hpre
      exact ⟨cs, out, rfl, hcs, hrest⟩
  | ands ht => exact absurd (List.cons_prefix_cons.1 hpre).1 hx

/-- A backslash of the text itself does not begin a continuation. -/
theorem Continued.not_prefix_continuation (h : Continued s out) :
    ¬ [10, 32, 32, 32, 32, 38, 38] <+: out := by
  intro hpre
  obtain ⟨t₁, out₁, rfl, h₁, hpre₁⟩ := h.of_cons (by decide) hpre
  obtain ⟨t₂, out₂, rfl, h₂, hpre₂⟩ := h₁.of_cons (by decide) hpre₁
  obtain ⟨t₃, out₃, rfl, h₃, hpre₃⟩ := h₂.of_cons (by decide) hpre₂
  obtain ⟨t₄, out₄, rfl, h₄, hpre₄⟩ := h₃.of_cons (by decide) hpre₃
  obtain ⟨t₅, out₅, rfl, h₅, hpre₅⟩ := h₄.of_cons (by decide) hpre₄
  exact h₅.not_prefix_ands hpre₅

theorem old_continuation :
    continuationRule.old = [92, 10, 32, 32, 32, 32, 38, 38] := by decide +kernel

theorem new_continuation : continuationRule.new = [38, 38] := by decide +kernel

/-- **Removing the continuations** gives the text back. -/
theorem Continued.uncontinue_eq (h : Continued s out) : uncontinue out = s := by
  induction h with
  | nil => rfl
  | @keep c cs out hand hcs ih =>
      have hfirst : firstRule [continuationRule] (c :: out) = none := by
        refine firstRule_eq_none.2 fun r hr => ?_
        rw [List.mem_singleton.1 hr, old_continuation]
        intro hpre
        exact hcs.not_prefix_continuation (List.cons_prefix_cons.1 hpre).2
      rw [uncontinue, replace_keep hfirst]
      exact congrArg (c :: ·) ih
  | @ands t out ht ih =>
      have hold : 92 :: 10 :: 32 :: 32 :: 32 :: 32 :: 38 :: 38 :: out
          = continuationRule.old ++ out := by
        rw [old_continuation]
        rfl
      have hfirst : firstRule [continuationRule] (continuationRule.old ++ out)
          = some continuationRule := by
        simp [firstRule]
      rw [hold, uncontinue, replace_sub hfirst, new_continuation]
      exact congrArg (fun u => 38 :: 38 :: u) ih

/-- Every continuation adds one backslash and four blanks. -/
theorem Continued.count (h : Continued s out) :
    ∃ k, out.count 92 = s.count 92 + k ∧ out.count 32 = s.count 32 + 4 * k := by
  induction h with
  | nil => exact ⟨0, rfl, rfl⟩
  | keep hand hcs ih =>
      obtain ⟨k, hslash, hblank⟩ := ih
      refine ⟨k, ?_, ?_⟩ <;> simp only [List.count_cons] <;> omega
  | ands ht ih =>
      obtain ⟨k, hslash, hblank⟩ := ih
      refine ⟨k + 1, ?_, ?_⟩ <;> simp [hslash, hblank] <;> omega

end Continued

/-! ## The reserved instructions -/

theorem count_reserved_of_ne (e s : Bytes) {x : UInt8} (hx : x ≠ 32) :
    (replace [reservedRule e] s).count x = s.count x := by
  have hcount := @count_cut _ _ [reservedRule e] x (fun _ => 0) (fun _ => 0) s fun r hr => by
    rw [List.mem_singleton.1 hr, reservedRule, List.count_cons_of_ne hx.symm]
  rw [total_zero] at hcount
  exact hcount.symm

/-- One blank less for every instruction joined. -/
theorem count_blank_reserved (e s : Bytes) :
    s.count 32 = (replace [reservedRule e] s).count 32 +
      (cut [reservedRule e] s).count (.sub (reservedRule e)) := by
  have hcount := @count_cut _ _ [reservedRule e] 32 (fun _ => 0)
    (fun r => if r = reservedRule e then 1 else 0) s fun r hr => by
      rw [List.mem_singleton.1 hr, if_pos rfl, reservedRule, List.count_cons_self]
  rwa [total_zero, total_single, Nat.one_mul] at hcount

theorem not_infix_of_count_eq {e s : Bytes}
    (h : (replace [reservedRule e] s).count 32 = s.count 32) : ¬ 32 :: e <:+: s := by
  have hnone : (cut [reservedRule e] s).count (.sub (reservedRule e)) = 0 := by
    have hcount := count_blank_reserved e s
    omega
  refine @not_infix_of_cut _ _ [reservedRule e] s (reservedRule e) (by simp) fun r hr => ?_
  rw [List.mem_singleton.1 (mem_of_sub_mem_cut hr)] at hr
  exact absurd (List.count_pos_iff.2 hr) (by omega)

theorem count_joinReserved_of_ne (es : List Bytes) (s : Bytes) {x : UInt8} (hx : x ≠ 32) :
    (joinReserved es s).count x = s.count x := by
  induction es generalizing s with
  | nil => rfl
  | cons e es ih => exact (ih _).trans (count_reserved_of_ne e s hx)

theorem joinReserved_eq_self {es : List Bytes} {s : Bytes} (h : ∀ e ∈ es, ¬ 32 :: e <:+: s) :
    joinReserved es s = s := by
  induction es with
  | nil => rfl
  | cons e es ih =>
      have hone : replace [reservedRule e] s = s := by
        refine replace_eq_self fun r hr => ?_
        rw [List.mem_singleton.1 hr]
        exact h e (List.mem_cons_self ..)
      rw [joinReserved, List.foldl_cons, hone]
      exact ih fun e' he' => h e' (List.mem_cons_of_mem _ he')

theorem count_blank_joinReserved_le (es : List Bytes) (s : Bytes) :
    (joinReserved es s).count 32 ≤ s.count 32 := by
  induction es generalizing s with
  | nil => exact le_rfl
  | cons e es ih =>
      have hcount := count_blank_reserved e s
      have hrest := ih (replace [reservedRule e] s)
      rw [joinReserved, List.foldl_cons]
      exact le_trans hrest (by omega)

/-- If no blank was lost, there was no instruction to join. -/
theorem not_infix_of_joinReserved {es : List Bytes} {s : Bytes}
    (h : (joinReserved es s).count 32 = s.count 32) : ∀ e ∈ es, ¬ 32 :: e <:+: s := by
  induction es generalizing s with
  | nil => simp
  | cons e es ih =>
      rw [joinReserved, List.foldl_cons, ← joinReserved] at h
      have hle := count_blank_joinReserved_le es (replace [reservedRule e] s)
      have hcount := count_blank_reserved e s
      have hhead : ¬ 32 :: e <:+: s := not_infix_of_count_eq (by omega)
      have hone : replace [reservedRule e] s = s := by
        refine replace_eq_self fun r hr => ?_
        rw [List.mem_singleton.1 hr]
        exact hhead
      rw [hone] at h
      intro e' he'
      rcases List.mem_cons.1 he' with rfl | hmem
      · exact hhead
      · exact ih h e' hmem

/-! ## The line of a command -/

/-- What `uncontinue` does to the letters that are counted. -/
theorem count_uncontinue (s : Bytes) :
    (uncontinue s).count 35 = s.count 35 ∧ (uncontinue s).count 82 = s.count 82 ∧
      ∃ k, s.count 92 = (uncontinue s).count 92 + k ∧
        s.count 32 = (uncontinue s).count 32 + 4 * k := by
  have hcount : ∀ x loss, [92, 10, 32, 32, 32, 32, 38, 38].count x = [38, 38].count x + loss →
      s.count x = (uncontinue s).count x +
        loss * (cut [continuationRule] s).count (.sub continuationRule) := by
    intro x loss hrule
    have h := @count_cut _ _ [continuationRule] x (fun _ => 0)
      (fun r => if r = continuationRule then loss else 0) s fun r hr => by
        rw [List.mem_singleton.1 hr, if_pos rfl, old_continuation, new_continuation]
        exact hrule
    rwa [total_zero, total_single] at h
  have hhash := hcount 35 0 (by decide)
  have hR := hcount 82 0 (by decide)
  have hslash := hcount 92 1 (by decide)
  have hblank := hcount 32 4 (by decide)
  refine ⟨by omega, by omega, _, ?_, hblank⟩
  rwa [Nat.one_mul] at hslash

/-- What the replacer does to them. -/
theorem count_cleaner (s : Bytes) :
    s.count 35 = (replace cleaner s).count 35 + (cut cleaner s).count (.sub nopRule) ∧
      s.count 82 + (cut cleaner s).count (.sub runRule) = (replace cleaner s).count 82 := by
  have hhash := @count_cut _ _ cleaner 35 (fun _ => 0) (fun r => if r = nopRule then 1 else 0) s
    (by decide +kernel)
  have hR := @count_cut _ _ cleaner 82 (fun r => if r = runRule then 1 else 0) (fun _ => 0) s
    (by decide +kernel)
  rw [total_zero, total_single, Nat.one_mul] at hhash hR
  exact ⟨hhash, hR⟩

/-- A reserved instruction begins with a letter that the shell call has behind none of its
blanks, and has neither `&` nor a backslash. -/
theorem reserved_word : ∀ e ∈ reservedInstructions, ∃ x w, e = x :: w ∧ 65 ≤ x ∧ 38 ∉ e ∧
    92 ∉ e := by
  intro e he
  have hall : ∀ e ∈ reservedInstructions, 65 ≤ e.headD 0 ∧ 38 ∉ e ∧ 92 ∉ e := by
    decide +kernel
  cases e with
  | nil => exact absurd (hall [] he).1 (by decide)
  | cons x w => exact ⟨x, w, rfl, hall _ he⟩

/-- Behind the shell call, an instruction can only stand in the rest of the line. -/
theorem infix_of_infix_run {x : UInt8} {w out : Bytes} (hlow : 65 ≤ x)
    (h : 32 :: x :: w <:+: runRule.new ++ out) : 32 :: x :: w <:+: out := by
  have hslash : x ≠ 47 := by rintro rfl; exact absurd hlow (by decide)
  have hdash : x ≠ 45 := by rintro rfl; exact absurd hlow (by decide)
  rw [new_run] at h
  simpa [List.infix_cons_iff, hslash, hdash] using h

theorem onlyAnds_of_counts {cmd : Bytes}
    (h : uncontinue (joinReserved reservedInstructions (runRule.new ++ replace cleaner (32 :: cmd)))
      = runRule.new ++ 32 :: cmd) : OnlyAnds (32 :: cmd) := by
  obtain ⟨hhash, hR, -⟩ := count_uncontinue
    (joinReserved reservedInstructions (runRule.new ++ replace cleaner (32 :: cmd)))
  obtain ⟨hnop, hrun⟩ := count_cleaner (32 :: cmd)
  rw [h, count_joinReserved_of_ne _ _ (by decide), List.count_append, List.count_append] at hhash hR
  intro r hr
  have hpos := List.count_pos_iff.2 hr
  have hmem := mem_of_sub_mem_cut hr
  simp only [cleaner, List.mem_cons, List.not_mem_nil, or_false] at hmem
  rcases hmem with rfl | rfl | rfl
  · omega
  · omega
  · rfl

/-- No blank was lost either. -/
theorem count_blank_of_eq {cmd : Bytes}
    (h : uncontinue (joinReserved reservedInstructions (runRule.new ++ replace cleaner (32 :: cmd)))
      = runRule.new ++ 32 :: cmd) :
    (joinReserved reservedInstructions (runRule.new ++ replace cleaner (32 :: cmd))).count 32 =
      (runRule.new ++ replace cleaner (32 :: cmd)).count 32 := by
  obtain ⟨k, hslash, hblank⟩ := (continued_replace (onlyAnds_of_counts h)).count
  obtain ⟨-, -, j, hslash', hblank'⟩ := count_uncontinue
    (joinReserved reservedInstructions (runRule.new ++ replace cleaner (32 :: cmd)))
  rw [h, count_joinReserved_of_ne _ _ (by decide), List.count_append, List.count_append,
    hslash] at hslash'
  rw [h, List.count_append] at hblank'
  rw [List.count_append, hblank, hblank']
  omega

theorem onlyAnds_of_no_shell {cmd : Bytes} (h : ¬ ascii "/bin/sh -c" <:+: cmd) :
    OnlyAnds (32 :: cmd) := by
  rw [onlyAnds_iff, List.infix_cons_iff, not_or]
  refine ⟨fun hpre => ?_, h⟩
  rw [old_run] at hpre
  exact absurd (List.cons_prefix_cons.1 hpre).1 (by decide)

/-- `RUN /bin/sh -c` has no continuation and starts none. -/
theorem uncontinue_run_append (s : Bytes) :
    uncontinue (runRule.new ++ s) = runRule.new ++ uncontinue s := by
  refine replace_append _ fun r hr c hc => ?_
  rw [List.mem_singleton.1 hr, old_continuation]
  rintro ⟨⟩
  rw [new_run] at hc
  exact absurd hc (by decide)

/-- The line of a command, without its continuations. -/
theorem uncontinue_emit_iff {cmd : Bytes} (hnop : ¬ ascii "#(nop) " <+: cmd) :
    uncontinue (emit (ascii "/bin/sh -c " ++ cmd)) = ascii "RUN /bin/sh -c " ++ cmd ↔
      Unambiguous cmd := by
  have hrun : ascii "RUN /bin/sh -c " ++ cmd = runRule.new ++ 32 :: cmd := by
    have hsplit : ascii "RUN /bin/sh -c " = runRule.new ++ [32] := by decide +kernel
    rw [hsplit, List.append_assoc]
    rfl
  have hblank : ascii " " = [32] := by decide +kernel
  rw [emit, replace_cleaner_shell hnop, hrun]
  constructor
  · intro h
    have hands := onlyAnds_of_counts h
    have hnone := not_infix_of_joinReserved (count_blank_of_eq h)
    refine ⟨fun hinf => (onlyAnds_iff _).1 hands (List.infix_cons hinf), fun e he hinf => ?_⟩
    obtain ⟨x, w, rfl, -, hamp, -⟩ := reserved_word e he
    rw [hblank] at hinf
    have hout : 32 :: x :: w <:+: replace cleaner (32 :: cmd) :=
      (continued_replace hands).infix_out (by simpa using hamp) hinf
    exact hnone _ he (hout.trans (List.suffix_append _ _).isInfix)
  · rintro ⟨hshell, hwords⟩
    have hcont := continued_replace (onlyAnds_of_no_shell hshell)
    have hself : joinReserved reservedInstructions (runRule.new ++ replace cleaner (32 :: cmd)) =
        runRule.new ++ replace cleaner (32 :: cmd) := by
      refine joinReserved_eq_self fun e he hinf => hwords e he ?_
      obtain ⟨x, w, rfl, hlow, -, hback⟩ := reserved_word e he
      rw [hblank]
      refine hcont.infix_source ?_ ?_ hback (infix_of_infix_run hlow hinf)
      · rintro rfl; exact absurd hlow (by decide)
      · rintro rfl; exact absurd hlow (by decide)
    rw [hself, uncontinue_run_append, hcont.uncontinue_eq]

/-! ## The file -/

theorem foldl_addLine (df : Bytes) (items : List HistoryItem) :
    ∃ after, items.foldl addLine df = df ++ after := by
  induction items generalizing df with
  | nil => exact ⟨[], (List.append_nil df).symm⟩
  | cons item items ih =>
      obtain ⟨after, hafter⟩ := ih (addLine df item)
      rw [List.foldl_cons, hafter, addLine]
      split
      · exact ⟨after, rfl⟩
      · exact ⟨emit item.createdBy ++ ascii "\n" ++ after, by rw [List.append_assoc]⟩

/-- The lines of an image are those of its older part, the line of an entry, and the rest. -/
theorem dockerFile_append (base : Bytes) (newer older : List HistoryItem) (item : HistoryItem)
    (hitem : item.createdBy ≠ []) :
    ∃ before after, dockerFile base (.ok older) = .ok before ∧
      dockerFile base (.ok (newer ++ item :: older)) =
        .ok (before ++ (emit item.createdBy ++ ascii "\n") ++ after) := by
  have hlen : item.createdBy.length ≠ 0 := fun h => hitem (List.eq_nil_of_length_eq_zero h)
  obtain ⟨after, hafter⟩ := foldl_addLine
    (addLine (older.reverse.foldl addLine (ascii "FROM " ++ base ++ ascii "\n")) item) newer.reverse
  refine ⟨_, after, rfl, ?_⟩
  rw [dockerFile, List.reverse_append, List.reverse_cons, List.foldl_append, List.foldl_append]
  simp only [List.foldl_cons, List.foldl_nil]
  rw [hafter, addLine, if_neg hlen]

/-- **Commands are preserved.**  For every entry of every history whose text is `/bin/sh -c `
and a command, the file has a line for the entry, behind the lines of the older entries; and
without its continuations this line is `RUN /bin/sh -c ` and the command exactly when the
command is unambiguous. -/
theorem run_line_preserved_iff (base : Bytes) (newer older : List HistoryItem) (item : HistoryItem)
    (cmd : Bytes) (hitem : item.createdBy = ascii "/bin/sh -c " ++ cmd)
    (hnop : ¬ ascii "#(nop) " <+: cmd) :
    ∃ before line after, dockerFile base (.ok older) = .ok before ∧
      dockerFile base (.ok (newer ++ item :: older)) =
        .ok (before ++ (line ++ ascii "\n") ++ after) ∧
      line = emit item.createdBy ∧
      (uncontinue line = ascii "RUN /bin/sh -c " ++ cmd ↔ Unambiguous cmd) := by
  have hne : item.createdBy ≠ [] := by
    rw [hitem, ascii_shell]
    simp
  obtain ⟨before, after, hbefore, hfile⟩ := dockerFile_append base newer older item hne
  refine ⟨before, emit item.createdBy, after, hbefore, hfile, rfl, ?_⟩
  rw [hitem]
  exact uncontinue_emit_iff hnop

/-- A command with two parts. -/
theorem run_line_preserved_mkdir :
    ∃ before line after, dockerFile (ascii "ubuntu") (.ok []) = .ok before ∧
      dockerFile (ascii "ubuntu") (.ok ([] ++ ⟨ascii "/bin/sh -c mkdir /run && true"⟩ :: [])) =
        .ok (before ++ (line ++ ascii "\n") ++ after) ∧
      line = emit (ascii "/bin/sh -c mkdir /run && true") ∧
      (uncontinue line = ascii "RUN /bin/sh -c " ++ ascii "mkdir /run && true" ↔
        Unambiguous (ascii "mkdir /run && true")) :=
  run_line_preserved_iff (ascii "ubuntu") [] [] ⟨ascii "/bin/sh -c mkdir /run && true"⟩
    (ascii "mkdir /run && true") (by decide +kernel) (by decide +kernel)

/-- `echo USER` becomes `echoUSER`. -/
theorem run_line_joined :
    dockerFile (ascii "ubuntu") (.ok [⟨ascii "/bin/sh -c echo USER"⟩]) =
        .ok (ascii "FROM ubuntu\nRUN /bin/sh -c echoUSER\n") ∧
      uncontinue (emit (ascii "/bin/sh -c echo USER")) ≠
        ascii "RUN /bin/sh -c " ++ ascii "echo USER" := by
  decide +kernel

end Dockerfile
