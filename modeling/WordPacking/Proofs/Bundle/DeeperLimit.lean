/-
# A higher nesting limit

Under a higher limit the walk over a type goes the same way as before, past the place where it may
have stopped at the limit.  So a limit only ever adds one error, the one that names it: every other
result is the same under all higher limits (`SameUnless`).  This goes from types to the models of a
bundle, which are made one after the other, and from there to what a run of the program prints.
-/
import WordPacking.CommandLine
import WordPacking.Proofs.Scope.Growth

namespace WordPacking

variable {limit limit' : Nat}

/-! ## Results that are the same but for one error -/

/-- The second result is the same as the first one, unless the first one is a given error. -/
def SameUnless {ε α : Type} (e : ε) (x y : Except ε α) : Prop := x = .error e ∨ y = x

namespace SameUnless

variable {ε ε' α β : Type} {e : ε} {x y : Except ε α}

/-- What goes on from the same result is the same. -/
lemma bind (h : SameUnless e x y) (k : α → Except ε β) : SameUnless e (x >>= k) (y >>= k) := by
  rcases h with rfl | rfl
  · exact Or.inl rfl
  · exact Or.inr rfl

lemma mapError (h : SameUnless e x y) (f : ε → ε') :
    SameUnless (f e) (x.mapError f) (y.mapError f) := by
  rcases h with rfl | rfl
  · exact Or.inl rfl
  · exact Or.inr rfl

/-- Two runs over a list are the same when their steps are. -/
lemma foldlM {f g : β → α → Except ε β} (h : ∀ b a, SameUnless e (f b a) (g b a)) (b : β)
    (l : List α) : SameUnless e (l.foldlM f b) (l.foldlM g b) := by
  induction l generalizing b with
  | nil => exact Or.inr rfl
  | cons a l ih =>
    rw [List.foldlM_cons, List.foldlM_cons]
    rcases h b a with hlost | hsame
    · exact Or.inl (by rw [hlost]; rfl)
    · rw [hsame]
      cases f b a with
      | error _ => exact Or.inr rfl
      | ok b' => exact ih b'

end SameUnless

/-! ## Types -/

namespace Scope

lemma grows_maxDepth (s : Scope) (hle : limit ≤ limit') :
    ({ s with maxDepth := limit } : Scope).Grows (· = .tooDeep limit)
      { s with maxDepth := limit' } where
  wordBits := rfl
  widths _ := Or.inl rfl
  definitions _ := Or.inl rfl
  maxDepth := Or.inr ⟨hle, rfl⟩

lemma resolve_of_le_maxDepth (s : Scope) (hle : limit ≤ limit') (d : Decl) :
    SameUnless (.tooDeep limit) ({ s with maxDepth := limit }.resolve d)
      ({ s with maxDepth := limit' }.resolve d) := by
  by_cases hdeep : { s with maxDepth := limit }.resolve d = .error (.tooDeep limit)
  · exact Or.inl hdeep
  · right
    refine resolve_of_grows (s.grows_maxDepth hle) ?_
    rintro e he rfl
    exact hdeep he

end Scope

/-! ## Models -/

namespace Bundle

lemma model_of_le_maxDepth (b : Bundle) (hle : limit ≤ limit') (name : String) :
    SameUnless (.resolve (.tooDeep limit)) ((b.withMaxDepth limit).model name)
      ((b.withMaxDepth limit').model name) := by
  rcases b.scope.resolve_of_le_maxDepth hle (Decl.named name) with hdeep | hsame
  · left
    have hresolve : (b.withMaxDepth limit).scope.resolve (Decl.named name) =
        .error (.tooDeep limit) := hdeep
    rw [model, Model.ofDecl, hresolve]
  · right
    have hresolve : (b.withMaxDepth limit').scope.resolve (Decl.named name) =
        (b.withMaxDepth limit).scope.resolve (Decl.named name) := hsame
    rw [model, model, Model.ofDecl, Model.ofDecl, hresolve]

lemma models_of_le_maxDepth (b : Bundle) (hle : limit ≤ limit') :
    SameUnless (.resolve (.tooDeep limit)) (b.withMaxDepth limit).models
      (b.withMaxDepth limit').models := by
  refine SameUnless.foldlM (fun c name => ?_) Catalogue.empty b.modelNames
  rcases b.model_of_le_maxDepth hle name with hdeep | hsame
  · exact Or.inl (by rw [addModel, hdeep])
  · exact Or.inr (by rw [addModel, addModel, hsame])

/-- A loaded bundle has the default limit. -/
lemma maxDepth_of_ofText {text : String} {b : Bundle} (h : ofText text = .ok b) :
    b.maxDepth = defaultMaxDepth := by
  unfold ofText at h
  split at h
  · cases h
  · next document _ =>
    unfold ofDocument at h
    split at h
    · cases h
    · cases h
      rfl

end Bundle

/-! ## Runs -/

namespace CommandLine

variable {o : Options} {arguments arguments' : List String}

/-- The limit that stands after the overrides. -/
def Options.nestingLimit (o : Options) : Nat := o.maxDepth.getD defaultMaxDepth

/-- To a bundle with the default limit the overrides bring the word size and this limit. -/
lemma Options.override_eq_withMaxDepth (o : Options) {b : Bundle}
    (hb : b.maxDepth = defaultMaxDepth) :
    o.override b = ({ o with maxDepth := none }.override b).withMaxDepth o.nestingLimit := by
  obtain ⟨path, model, wordBits, maxDepth⟩ := o
  obtain ⟨bits, primitives, types, modelNames, depth⟩ := b
  obtain rfl : depth = defaultMaxDepth := hb
  cases wordBits <;> cases maxDepth <;> rfl

/-- Options that differ in the limit lead to the same bundle under the one limit or the other, or
both lead to the same failure. -/
lemma loadBundle_of_limit (w : Surroundings) (o : Options) (limit' : Nat) :
    (∃ failure, loadBundle w o = .error failure ∧
      loadBundle w { o with maxDepth := some limit' } = .error failure) ∨
    ∃ b : Bundle, loadBundle w o = .ok (b.withMaxDepth o.nestingLimit) ∧
      loadBundle w { o with maxDepth := some limit' } = .ok (b.withMaxDepth limit') := by
  cases hpath : o.path with
  | none => refine Or.inl ⟨.missingPath, ?_, ?_⟩ <;> simp only [loadBundle, hpath]
  | some path =>
    cases htext : (w.files path).text with
    | error reason =>
      refine Or.inl ⟨.unreadable path reason, ?_, ?_⟩ <;> simp only [loadBundle, hpath, htext]
    | ok text =>
      cases hbundle : Bundle.ofText text with
      | error cause =>
        left
        cases cause with
        | invalidDocument =>
          refine ⟨.invalidDocument (w.explain text), ?_, ?_⟩ <;>
            simp only [loadBundle, hpath, htext, hbundle]
        | register cause =>
          refine ⟨.register cause, ?_, ?_⟩ <;> simp only [loadBundle, hpath, htext, hbundle]
      | ok bundle =>
        have hdefault := Bundle.maxDepth_of_ofText hbundle
        -- the bundle of the document with the word size set and the limit still to be set
        refine Or.inr ⟨{ o with maxDepth := none }.override bundle, ?_, ?_⟩
        · simp only [loadBundle, hpath, htext, hbundle]
          rw [o.override_eq_withMaxDepth hdefault, hpath]
        · simp only [loadBundle, hpath, htext, hbundle]
          rw [Options.override_eq_withMaxDepth _ hdefault]
          rfl

/-- What a report says about a bundle depends on the models of the bundle alone, and so does whether
there is room for it. -/
lemma reportOn_of_models {b b' : Bundle} {e : ModelError}
    (h : SameUnless e b.models b'.models) (w : Surroundings) (asked : Option String)
    (k : Catalogue → Except ModelError String) :
    SameUnless (.model e) (w.reportOn b asked fun b => b.models >>= k)
      (w.reportOn b' asked fun b => b.models >>= k) := by
  rcases h with hlost | hsame
  · left
    rw [Surroundings.reportOn, Surroundings.hasRoom, hlost]
    rfl
  · right
    rw [Surroundings.reportOn, Surroundings.reportOn, Surroundings.hasRoom, Surroundings.hasRoom,
      hsame]

/-- A report that a higher limit leaves as it is also stays as it is where the bundle is loaded
first. -/
lemma report_of_limit {report : Bundle → Except Failure String}
    (hreport : ∀ b : Bundle, SameUnless (.model (.resolve (.tooDeep o.nestingLimit)))
      (report (b.withMaxDepth o.nestingLimit)) (report (b.withMaxDepth limit')))
    (w : Surroundings) :
    SameUnless (.model (.resolve (.tooDeep o.nestingLimit)))
      (match loadBundle w o with
        | .error failure => .error failure
        | .ok bundle => report bundle)
      (match loadBundle w { o with maxDepth := some limit' } with
        | .error failure => .error failure
        | .ok bundle => report bundle) := by
  rcases loadBundle_of_limit w o limit' with ⟨failure, hfail, hfail'⟩ | ⟨b, hload, hload'⟩
  · rw [hfail, hfail']
    exact Or.inr rfl
  · rw [hload, hload']
    exact hreport b

lemma layout_of_limit (hle : o.nestingLimit ≤ limit')
    (hscan : Options.scan {} arguments = .ok o)
    (hscan' : Options.scan {} arguments' = .ok { o with maxDepth := some limit' })
    (w : Surroundings) :
    SameUnless (.model (.resolve (.tooDeep o.nestingLimit))) (layout w arguments)
      (layout w arguments') := by
  simp only [layout, hscan, hscan']
  cases o.model <;>
    exact report_of_limit (fun b => reportOn_of_models (b.models_of_le_maxDepth hle) w _ _) w

lemma plan_of_limit (hle : o.nestingLimit ≤ limit')
    (hscan : Options.scan {} arguments = .ok o)
    (hscan' : Options.scan {} arguments' = .ok { o with maxDepth := some limit' })
    (w : Surroundings) :
    SameUnless (.model (.resolve (.tooDeep o.nestingLimit))) (plan w arguments)
      (plan w arguments') := by
  simp only [plan, hscan, hscan']
  cases o.model with
  | none => exact Or.inr rfl
  | some name =>
    exact report_of_limit (fun b => reportOn_of_models (b.models_of_le_maxDepth hle) w _ _) w

/-- Of the commands only two take options. -/
lemma run_of_limit (hle : o.nestingLimit ≤ limit')
    (hscan : Options.scan {} arguments = .ok o)
    (hscan' : Options.scan {} arguments' = .ok { o with maxDepth := some limit' })
    (w : Surroundings) (command : String) :
    run w (command :: arguments) =
        .ofReport w (.error (.model (.resolve (.tooDeep o.nestingLimit)))) ∨
      run w (command :: arguments') = run w (command :: arguments) := by
  simp only [run]
  split
  · exact (layout_of_limit hle hscan hscan' w).imp (congrArg (Outcome.ofReport w))
      (congrArg (Outcome.ofReport w))
  · split
    · exact (plan_of_limit hle hscan hscan' w).imp (congrArg (Outcome.ofReport w))
        (congrArg (Outcome.ofReport w))
    · exact Or.inr rfl

end CommandLine

/-- **A nesting limit only ever adds the error that names it.**  Whatever else comes of a type under
a limit, a schema or an error with all that it says, comes of it under every higher limit as well.
The same goes for the models of a bundle; in particular models that can be made stay the same.  And
a run with a higher limit in its options prints the same and ends with the same exit code, unless
the run with the lower one ends with that error. -/
theorem same_under_higher_limit (hle : limit ≤ limit') :
    (∀ (s : Scope) (d : Decl), { s with maxDepth := limit }.resolve d = .error (.tooDeep limit) ∨
      { s with maxDepth := limit' }.resolve d = { s with maxDepth := limit }.resolve d) ∧
    (∀ b : Bundle, (b.withMaxDepth limit).models = .error (.resolve (.tooDeep limit)) ∨
      (b.withMaxDepth limit').models = (b.withMaxDepth limit).models) ∧
    (∀ (b : Bundle) (c : Catalogue), (b.withMaxDepth limit).models = .ok c →
      (b.withMaxDepth limit').models = .ok c) ∧
    ∀ (w : CommandLine.Surroundings) (command : String)
      (arguments arguments' : List String) (o : CommandLine.Options),
      CommandLine.Options.scan {} arguments = .ok o → o.nestingLimit = limit →
      CommandLine.Options.scan {} arguments' = .ok { o with maxDepth := some limit' } →
      CommandLine.run w (command :: arguments) =
          .ofReport w (.error (.model (.resolve (.tooDeep limit)))) ∨
        CommandLine.run w (command :: arguments') = CommandLine.run w (command :: arguments) := by
  refine ⟨fun s d => s.resolve_of_le_maxDepth hle d, fun b => b.models_of_le_maxDepth hle, ?_, ?_⟩
  · intro b c hc
    rcases b.models_of_le_maxDepth hle with hdeep | hsame
    · rw [hc] at hdeep
      cases hdeep
    · exact hsame.trans hc
  · rintro w command arguments arguments' o hscan rfl hscan'
    exact CommandLine.run_of_limit hle hscan hscan' w command

/-- A struct in a struct is too deep for a limit of one and resolved under two.  Under three it is
resolved to the same, and a run on a file that is not there ends in the same way. -/
theorem same_under_limit_of_three :
    let inner : Decl := .struct "Inner" .empty [⟨"x", Decl.primitive "u8", .key⟩]
    let d : Decl := .struct "Outer" .empty [⟨"inner", inner, .empty⟩]
    let s : Scope := ⟨.standard, .empty, 1⟩
    let schema : Schema := ⟨.struct "Outer" .empty [
      ⟨"inner", .struct "Inner" .empty [⟨"x", .leaf ⟨"u8", 8⟩, .key⟩], .empty⟩], 251⟩
    let w : CommandLine.Surroundings := { files := fun _ => .missing }
    2 ≤ 3 ∧ s.resolve d = .error (.tooDeep 1) ∧ { s with maxDepth := 2 }.resolve d = .ok schema ∧
      { s with maxDepth := 3 }.resolve d = .ok schema ∧
      CommandLine.run w ["layout", "moves.json", "--max-depth", "3"] =
        CommandLine.run w ["layout", "moves.json", "--max-depth", "2"] := by
  intro inner d s schema w
  obtain ⟨htypes, -, -, hruns⟩ := same_under_higher_limit (by decide : 2 ≤ 3)
  have hone : s.resolve d = .error (.tooDeep 1) := by
    simp only [d, inner, Decl.primitive, Scope.resolve, Scope.expand, Scope.expandMembers]
    rfl
  have htwo : { s with maxDepth := 2 }.resolve d = .ok schema := by
    simp only [d, inner, Decl.primitive, Scope.resolve, Scope.expand, Scope.expandMembers]
    rfl
  have hthree : { s with maxDepth := 3 }.resolve d = .ok schema := by
    rcases htypes s d with hdeep | hsame
    · rw [htwo] at hdeep
      cases hdeep
    · exact hsame.trans htwo
  have hrun := hruns w "layout" ["moves.json", "--max-depth", "2"]
    ["moves.json", "--max-depth", "3"] ⟨some "moves.json", none, none, some 2⟩
    (by decide +kernel) rfl (by decide +kernel)
  refine ⟨by decide, hone, htwo, hthree, hrun.resolve_left ?_⟩
  decide +kernel

end WordPacking
