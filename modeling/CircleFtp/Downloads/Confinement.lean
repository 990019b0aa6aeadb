import CircleFtp.Concurrent.Triple
import CircleFtp.Downloads.Containment
import CircleFtp.Downloads.Outline

/-! Files come and go beneath the media directory only: whatever the process does, and however often
it crashes and starts again, every other path has the file that it had. -/
namespace CircleFtp.Downloads
open Concurrent Files Strings

/-- Whatever names the file has lie beneath the directory. -/
def Inside (root : Str) (d : Disk Str UInt8) (i : Nat) : Prop := ∀ p, d.links p = some i → Beneath root p

/-- No file outside the directory has changed, and none has come out of it. -/
structure Confined (root : Str) (d d' : Disk Str UInt8) : Prop where
  outside : ∀ p, ¬ Beneath root p → d.SameAt d' p
  inside : ∀ i, Inside root d i → Inside root d' i

section
variable {root : Str} {d d' d'' : Disk Str UInt8} {p q : Str}

theorem Confined.refl (root : Str) (d : Disk Str UInt8) : Confined root d d := ⟨fun _ _ => ⟨rfl, rfl⟩, fun _ => id⟩

theorem Confined.trans (h : Confined root d d') (h' : Confined root d' d'') : Confined root d d'' where
  outside p hp := ⟨(h'.outside p hp).1.trans (h.outside p hp).1, (h'.outside p hp).2.trans (h.outside p hp).2⟩
  inside i hi := h'.inside i (h.inside i hi)

theorem Beneath.apart (hp : Beneath root p) (hq : ¬ Beneath root q) : q ≠ p := fun e => hq (e ▸ hp)

theorem Confined.remove (hp : Beneath root p) : Confined root d (d.remove p) where
  outside q hq := ⟨d.remove_links_of_ne (hp.apart hq), d.content_remove_of_ne (hp.apart hq)⟩
  inside i hi q hq := by
    by_cases e : q = p
    · exact e ▸ hp
    · exact hi q (by rwa [d.remove_links_of_ne e] at hq)

theorem Confined.rename (hp : Beneath root p) (hq : Beneath root q) : Confined root d (d.rename p q) where
  outside r hr := d.rename_sameAt (hp.apart hr) (hq.apart hr)
  inside i hi r hr := by
    by_cases hrq : r = q
    · exact hrq ▸ hq
    by_cases hrp : r = p
    · exact hrp ▸ hp
    · exact hi r (by simpa [Disk.rename, hrq, hrp] using hr)

theorem Confined.openFile (hp : Beneath root p) (keep : Bool) : Confined root d (d.openFile p keep).2 where
  outside q hq := d.openFile_sameAt (hp.apart hq) keep
  inside i hi q hq := by
    by_cases e : q = p
    · exact e ▸ hp
    · exact hi q (by rwa [d.openFile_links_of_ne e] at hq)

theorem Confined.write {i : Nat} (hi : Inside root d i) (position : Option Nat) (b : UInt8) :
    Confined root d (d.write i position b) where
  outside q hq := d.write_sameAt (fun hl => hq (hi q hl)) position b
  inside _ hj := hj

end

/-- The calls that remove a file beneath the directory, or leave the disk alone. -/
def Op.Tidy (root : Str) (o : Op) : Prop := o.onDisk = false ∨ ∃ p, Beneath root p ∧ o = .remove p

section
variable {root : Str} {t : Nat} {k : Task} {w w' : DownloadWorld} {o : Op} {r : Reply o}
  {φ : Disk Str UInt8 → Prop} {α : Type}

end

section
variable {root : Str} {t : Nat} {k : Task} {options : FetchOptions}

variable (hp : ∀ n total, (options.onProgress n total).run.Uses fun o => o.onDisk = false)
include hp

variable (hb : Beneath root options.destination)
include hb

end

/-- While it fetches, the worker knows where the file goes. -/
def Stage.Confined (root : Str) : Stage → Prop
  | .trying _ destination _ => Beneath root destination
  | _ => True

section
variable {env : Env} {t : Nat}

theorem Next.onDisk {id c : Nat} {s s' : Stage} {o : Op} {v : Val o} (h : Next env id c s o v s') :
    o.onDisk = false := by
  cases h <;> rfl

theorem Op.MadeBy.tidy {root : Str} {o : Op} {k : Task} (h : o.MadeBy k)
    (hw : ¬ ∃ id c, k = .worker id c) (hd : ¬ ∃ id, k = .request (.delete id true)) : o.Tidy root := by
  refine .inl ?_
  cases o with
  | remove path => exact absurd (h.resolve_left hw) hd
  | rename | openFile | write => exact absurd h hw
  | _ => rfl

end

end CircleFtp.Downloads
