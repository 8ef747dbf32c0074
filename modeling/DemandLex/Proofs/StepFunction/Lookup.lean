import DemandLex.Proofs.StepFunction.Stream

/-! Both look-up trees of a step function answer as the step function does. -/

namespace DemandLex.StepFunction

section Trees
variable {ω E T : Type} {compare : E → E → Ordering} {f : StepFunction E T} {t : LookupTree E T}

/-- A tree that writes a step function in order loses and repeats nothing of it. -/
theorem entries_of_toStepFunction (writes : t.toStepFunction = f) :
    t.leaves = f.first :: f.breakpoints.map Breakpoint.value ∧
      t.keys = f.breakpoints.map Breakpoint.edge ∧ t.leafCount = f.breakpoints.length + 1 := by
  subst writes
  exact ⟨t.leaves_eq, t.keys_eq, t.leafCount_eq⟩

theorem get_of_toStepFunction [Std.TransCmp compare] (key : E) (writes : t.toStepFunction = f)
    (increasing : Increasing compare f.breakpoints) : t.get compare key = f.get compare key := by
  subst writes
  exact (t.get_toStepFunction key increasing).symm

/-- Both trees hold exactly the step function, and on increasing edges they find at every key what
the scan of the breakpoints finds. A stream with these breakpoints is made into the same trees, and
its scan finds the same. -/
theorem trees_refine_scan (f : StepFunction E T) :
    (∀ (compare : E → E → Ordering) [Std.TransCmp compare], Increasing compare f.breakpoints →
      ∀ key, (LookupTree.sequential f).get compare key = f.get compare key ∧
        (LookupTree.balanced f).get compare key = f.get compare key) ∧
    (∀ t ∈ [LookupTree.sequential f, LookupTree.balanced f],
      t.leaves = f.first :: f.breakpoints.map Breakpoint.value ∧
        t.keys = f.breakpoints.map Breakpoint.edge ∧ t.leafCount = f.breakpoints.length + 1) ∧
    ∀ (ω : Type) (s : StepStream E T) (store : Store ω (Breakpoint E T))
      (M : Meaning (Breakpoint E T)), store.Ready M → s.Shows f store M →
      s.sequentialTree.Returns store M (fun t _ _ => t = LookupTree.sequential f) ∧
        (StepFunction.toTree <$> s.toStepFunction).Returns store M
          (fun t _ _ => t = LookupTree.balanced f) ∧
        ∀ (compare : E → E → Ordering) (key : E),
          (s.get compare key).Returns store M fun value _ _ => value = f.get compare key := by
  have sequential := LookupTree.toStepFunction_sequential f
  have balanced := LookupTree.toStepFunction_balanced f
  refine ⟨?_, ?_, ?_⟩
  · intro compare lawful increasing key
    exact ⟨get_of_toStepFunction key sequential increasing,
      get_of_toStepFunction key balanced increasing⟩
  · intro t member
    rcases List.mem_pair.mp member with rfl | rfl
    · exact entries_of_toStepFunction sequential
    · exact entries_of_toStepFunction balanced
  · intro ω s store M ready shows
    refine ⟨StepStream.returns_sequentialTree ready shows, ?_, ?_⟩
    · apply (StepStream.returns_toStepFunction ready shows).map.mono
      intro t store' M' leaves found
      obtain ⟨g, rfl, rfl⟩ := found
      rfl
    · exact fun compare key => StepStream.returns_get ready shows

end Trees

/-- Five breakpoints, the last two with one value. -/
theorem trees_refine_scan_five :
    let f : StepFunction Nat Nat := ⟨7, [⟨2, 1⟩, ⟨3, 7⟩, ⟨5, 0⟩, ⟨8, 4⟩, ⟨9, 4⟩]⟩
    Increasing compare f.breakpoints ∧ (LookupTree.sequential f).get compare 5 = f.get compare 5 ∧
      (LookupTree.balanced f).leaves = [7, 1, 7, 0, 4, 4] ∧
      ∃ (store : Store String (Breakpoint Nat Nat)) (M : Meaning (Breakpoint Nat Nat))
        (s : StepStream Nat Nat), store.Ready M ∧ s.Shows f store M ∧
        s.sequentialTree.Returns store M fun t _ _ => t = LookupTree.sequential f := by
  intro f
  have increasing : Increasing compare f.breakpoints := by decide
  obtain ⟨found, entries, streamed⟩ := trees_refine_scan f
  obtain ⟨s, store, M, -, leaves, shows⟩ :=
    StepStream.returns_ofStepFunction (ω := String) (f := f) Store.ready_empty
  exact ⟨increasing, (found compare increasing 5).1, (entries _ (by simp)).1, store, M, s, leaves.ready,
    shows, (streamed String s store M leaves.ready shows).1⟩

end DemandLex.StepFunction
