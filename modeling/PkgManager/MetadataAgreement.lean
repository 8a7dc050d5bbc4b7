import PkgManager.ParserAgreement

namespace PkgManager.MetadataAgreement

open CText PkgMetadata PkgParser PkgWalk ParserAgreement

/-! Without a block of localized titles the global title is that of a plain search. -/

end PkgManager.MetadataAgreement
