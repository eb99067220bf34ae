import Playback.Proofs.Reach

/-!
# Where control goes

A block ends early where a `break`, a `continue` or a `return` is executed in it. Lowering admits these only where they
have something to leave, and running keeps to it: the code of statements ends only as their place lets it, traced or
not. So control never leaves a function but to return, and the statements of the file are all executed unless one of
them fails (`Script.control_contained`).
-/

namespace Playback

open Eval
open Lower (Lowered)

/-- Whichever body of a function is run, it ends as the place inside a function lets it. -/
theorem HasBodies.ends (hco : HasBodies p c) (hi : f.Settles p) (n : Nat) (t : Bool) (hm : m.Sound p) :
    Ends (execBlock f n (c.body t)) m (fun fl _ => fl.Fits p .function) fun _ => True := by
  cases t with
  | true =>
    obtain ⟨ps, hf, hb⟩ := hco.traced
    rw [FunctionCode.body, if_pos rfl, hb, execBlock_append, execBlock_single]
    refine Ends.andThen ((plans_obey hi n hf m hm).mono (fun _ _ h => h)
      fun _ _ => trivial) (fun _ h => ?_) fun _ _ _ h => h.fits
    refine (endFrame_later n 1 h.later.sound fun _ => True).mono ?_ fun _ h => h
    rintro _ _ ⟨rfl, -⟩
    trivial
  | false =>
    obtain ⟨ps, hf, hb⟩ := hco.plain
    rw [FunctionCode.body, hb]
    exact (plans_stay hi n hf m hm).mono (fun _ _ h => h.1) fun _ _ => trivial

theorem Eval.execBlock_append_normal
    (h : ∀ fl m', execBlock f n (b ++ a) m = .ok fl m' → fl = .normal) : execBlock f n (b ++ a) m
      = (execBlock f n b >>= fun _ => execBlock f n a) m := by
  rw [execBlock_append] at h ⊢
  unfold andThen at h ⊢
  cases hb : execBlock f n b m with
  | error _ m1 => rw [error_bind hb, error_bind hb]
  | ok fl m1 =>
    rw [ok_bind hb] at h
    rw [ok_bind hb, ok_bind hb]
    cases fl with
    | normal => rfl
    | break_ | continue_ | return_ => cases h _ _ rfl

/-- **Control never leaks.** However a compiled script is run, its file ends normally or fails: no `break`, `continue`
or `return` comes out of it. The body that a call runs, traced or not, does not end with a `break` or a `continue`. So
wherever the code of the file is cut in two, running it is running the first part and then the second, and only a
failure of the first keeps the second from being executed. -/
theorem Script.control_contained {script : Script} {program : Program} (hcompile : script.compile = .ok program)
    (rounds : Nat) (limits : Limits) (mode : Mode) (input : List String) :
    let invoke := Eval.invoke rounds limits.recursion
    let start := Machine.ready limits mode input
    (∀ flow m', Eval.execBlock invoke rounds program.body start = .ok flow m' → flow = .normal)
    ∧ (∀ room code args keywords m locals,
      Reached program rounds limits mode input (room + 1) (.call code args keywords) m →
      code.bind args keywords = .ok locals → ∀ flow m',
        Eval.execBlock (Eval.invoke rounds room) rounds (code.body (m.traces code)) (m.called code locals)
          = .ok flow m' → flow ≠ .break_ ∧ flow ≠ .continue_)
    ∧ ∀ before after, program.body = before ++ after → Eval.execBlock invoke rounds program.body start
        = (Eval.execBlock invoke rounds before >>= fun _ => Eval.execBlock invoke rounds after) start := by
  have hinvoke := invoke_settles (fun _ (hcode : Lowered _) => hcode.hasBodies) rounds
  have hnormal : ∀ flow m', execBlock (Eval.invoke rounds limits.recursion) rounds program.body
      (Machine.ready limits mode input) = .ok flow m' → flow = .normal := by
    intro flow m' hexec
    obtain ⟨_, hps, hbody⟩ := Script.compile_plans hcompile
    rw [hbody] at hexec
    have hfits := ((plans_obey (hinvoke _) rounds hps _ (Machine.sound_ready limits mode input).1).ok hexec).fits
    cases flow with
    | normal => rfl
    | break_ | continue_ => cases hfits
    | return_ v => cases hfits.1
  refine ⟨hnormal, fun room code args keywords m locals hcall hbind flow m' hexec => ?_, ?_⟩
  · have hfine := hcall.fine hcompile
    have hends := hfine.fits.1.hasBodies.ends (hinvoke room) rounds (m.traces code) (hfine.body hbind).sound
    have hfits := hends.ok hexec
    cases flow with
    | normal | return_ => exact ⟨nofun, nofun⟩
    | break_ | continue_ => cases hfits
  · intro before after hsplit
    rw [hsplit] at hnormal ⊢
    exact execBlock_append_normal hnormal

/-- A function that returns from inside a loop, and a loop in the file that is left. -/
def searching : Script :=
  [.function "first" none ["xs"]
      [.forLoop [.name "x"] [.name "xs"] [.conditional [.name "x"] [.return_ [.name "x"]] [.else_ [.continue_]]]],
    .whileLoop [.bool true] [.break_],
    .expression [.call "first" [.positional [.list [[.bool false], [.bool true]]]]]]

theorem control_contained_searching : ∃ program, searching.compile = .ok program
    ∧ ∀ rounds, let start := Machine.ready {} .command []
      (∀ flow m', Eval.execBlock (Eval.invoke rounds 1000) rounds program.body start = .ok flow m' → flow = .normal)
      ∧ Eval.execBlock (Eval.invoke rounds 1000) rounds program.body start
        = (Eval.execBlock (Eval.invoke rounds 1000) rounds (program.body.take 5)
          >>= fun _ => Eval.execBlock (Eval.invoke rounds 1000) rounds (program.body.drop 5)) start := by
  have hok : searching.compile.isOk = true := by decide +kernel
  cases hcompile : searching.compile with
  | error e =>
    rw [hcompile] at hok
    cases hok
  | ok program =>
    refine ⟨program, rfl, fun rounds => ?_⟩
    obtain ⟨hnormal, -, hcut⟩ := Script.control_contained hcompile rounds {} .command []
    exact ⟨hnormal, hcut _ _ (List.take_append_drop 5 program.body).symm⟩

end Playback
