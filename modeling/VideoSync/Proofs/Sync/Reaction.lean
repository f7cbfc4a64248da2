import VideoSync.Sync.Controller

/-
  What hosts may do before a call returns. `Hosted w w'` holds when the hosts, called in the world
  `w`, can leave the world `w'`: they do any actions one after another, and the calls that these
  actions make are answered in the same way. Loads are not begun from inside a call. A reaction is
  `Lawful` when it does nothing else; the reaction that runs what is armed is lawful.

  `Invariance` collects what a relation between two worlds needs in order to hold across everything
  that hosts may do. The induction over nested reactions is done here once.
-/

namespace VideoSync.Sync

/-- The hosts can lead from the first world to the second one while they are called. -/
inductive Hosted : World → World → Prop
  | refl (w : World) : Hosted w w
  | act {r : Reaction} {w w' : World} (a : Action) (nested : ∀ m v, Hosted v (r m v))
      (rest : Hosted (w.apply r a).1 w') : Hosted w w'
  | arm {w w' : World} (armed : List Armed) (rest : Hosted (w.withArmed armed) w') : Hosted w w'
  | reacted {w w' : World} (m : Method) (result : Option Bool)
      (rest : Hosted (w.note .outside (.reacted m result)) w') : Hosted w w'

/-- The reaction does only what hosts may do. -/
def Lawful (r : Reaction) : Prop := ∀ m w, Hosted w (r m w)

theorem lawful_react (depth : Nat) : Lawful (World.react depth) := by
  induction depth with
  | zero => exact fun _ w => .refl w
  | succ depth ih =>
    intro m w
    unfold World.react
    split
    · exact .refl w
    · next action rest _ =>
      exact .arm rest (.act action ih (.reacted m _ (.refl _)))

/-- Running what is armed is lawful. -/
theorem lawful_reaction : Lawful World.reaction := fun m w => lawful_react w.depth m w

/-- A relation between worlds that every single thing hosts may do stays within, if what they do in
nested calls stays within it. -/
structure Invariance (P : World → World → Prop) : Prop where
  refl : ∀ w, P w w
  trans : ∀ {u v w}, P u v → P v w → P u w
  hosts : ∀ w h, P w (w.withHosts h)
  armed : ∀ w armed, P w (w.withArmed armed)
  reacted : ∀ w m result, P w (w.note .outside (.reacted m result))
  event : ∀ {r}, (∀ m v, P v (r m v)) → ∀ e w, P w (w.mediaEvent r e)
  seek : ∀ {r}, (∀ m v, P v (r m v)) → ∀ seconds w, P w (w.requestSeek r seconds).1
  detach : ∀ w, P w w.detach

namespace Invariance

variable {P : World → World → Prop} {r : Reaction}

theorem apply (hP : Invariance P) (hr : ∀ m v, P v (r m v)) (a : Action) (w : World) :
    P w (w.apply r a).1 := by
  cases a with
  | media e => exact hP.event hr e w
  | seek seconds => exact hP.seek hr seconds w
  | plot element seconds =>
    show P w (w.plotEvent r element seconds).1
    unfold World.plotEvent
    split
    · exact hP.seek hr seconds w
    · exact hP.refl w
  | detach => exact hP.detach w
  | setDuration => exact hP.hosts w _
  | setPaused => exact hP.hosts w _
  | setTime => exact hP.hosts w _
  | setPlayable => exact hP.hosts w _
  | setSession => exact hP.hosts w _
  | arm => exact hP.armed w _

theorem hosted (hP : Invariance P) {w w' : World} (h : Hosted w w') : P w w' := by
  induction h with
  | refl w => exact hP.refl w
  | act a _ _ nested rest => exact hP.trans (hP.apply nested a _) rest
  | arm armed _ rest => exact hP.trans (hP.armed _ armed) rest
  | reacted m result _ rest => exact hP.trans (hP.reacted _ m result) rest

theorem lawful (hP : Invariance P) (hr : Lawful r) (m : Method) (v : World) : P v (r m v) :=
  hP.hosted (hr m v)

end Invariance
end VideoSync.Sync
