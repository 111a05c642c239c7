import RollMenu.Progress
import RollMenu.Store.Binary

/-!
# Stored records

The two kinds of records that are stored, and the order in which their fields stand in a
file.
-/

namespace RollMenu

/-- Display styles: the images, then the colour. -/
def DisplayStyle.codec : Codec DisplayStyle :=
  (Codec.pair (.oneOf DiceImage.all) (.optional .text)).convert
    (fun s => (s.image, s.color))
    (fun (image, color) => { image, color })

/-- Configurations, field by field. -/
def Config.codec : Codec Config :=
  (Codec.pair .text (.pair (.optional .word) (.pair .text (.pair (.oneOf EngineName.all)
    (.pair (.oneOf AnswerFormat.all) DisplayStyle.codec))))).convert
    (fun c => (c.template, c.answerTarget, c.locale, c.engine, c.answerFormat, c.displayStyle))
    (fun (template, answerTarget, locale, engine, answerFormat, displayStyle) =>
      { template, answerTarget, locale, engine, answerFormat, displayStyle })

/-- Selections in progress: the selections, then the lock. -/
def Progress.codec : Codec Progress :=
  (Codec.pair (.list .text) (.optional .text)).convert
    (fun p => (p.selections, p.lock))
    (fun (selections, lock) => { selections, lock })

end RollMenu
